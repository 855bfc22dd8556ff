import ThreeXhaust.Chord.Store.Text

/-!
# Tables of the store, their cells and their operands

`store/columns.ts`, `store/table.ts` and `store/rows.ts`, as far as conditions and `set`s need them:
tables over `str`, `int`, `bool` and `json` columns, the cells of their rows, and the values a plugin
hands over. `num` columns are not modelled, nor is the JSON of a cell: `Values` says what JavaScript
makes of it.
-/

namespace ThreeXhaust.Chord.Store

open Utf16 (Text)

inductive ColumnType where
  | str | int | bool | json
  deriving DecidableEq

def ColumnType.name : ColumnType → String
  | .str => "str"
  | .int => "int"
  | .bool => "bool"
  | .json => "json"

structure Column where
  name : String
  type : ColumnType
  /-- `opt(...)` -/
  optional : Bool
  /-- The version of a `json(...)` column. -/
  version : Nat

def isColumnName (name : String) : Bool :=
  match name.toList with
  | [] => false
  | c :: rest =>
    (c.isAlpha || c = '_') && rest.all fun c => c.isAlphanum || c = '_'

/-- A declared table. `__proto__` is a name `COLUMN_NAME` allows, but no JavaScript row has a cell of
that name. -/
structure Table where
  name : String
  columns : List Column
  key : List String
  nodup : (columns.map (·.name)).Nodup
  names : ∀ c ∈ columns, isColumnName c.name = true ∧ c.name ≠ "__proto__"

def Table.byName (table : Table) (name : String) : Option Column :=
  table.columns.find? (·.name = name)

inductive Scalar where
  | str (s : Text)
  | int (n : Int)
  | bool (b : Bool)

/-- A cell as the evaluator reads it; `J` are the JSON values. -/
inductive Cell (J : Type) where
  | scalar (s : Scalar)
  | json (value : J)

/-- A row as the evaluator reads it, an absent column being `NULL`. -/
abbrev Row (J : Type) := String → Option (Cell J)

inductive Comparison where
  | eq | ne | lt | lte | gt | gte

inductive Operation where
  | add | sub | max | min | concat

/-- `op` of a condition with operands. -/
inductive ConditionOp where
  | comparison (op : Comparison)
  | inArray
  | isNull
  | hasPrefix
  | not

/-- `op` of a condition over conditions. -/
inductive Junction where
  | and | or

inductive ExpressionOp where
  | operation (op : Operation)
  | coalesce
  | replacePrefix
  | when

/-- A value of a plugin. Conditions and expressions have the arguments that are read: one that is
missing is `undefined`. -/
inductive Operand (J : Type) where
  | undefined
  | null
  | bool (b : Bool)
  /-- A number that is an integer. -/
  | int (n : Int)
  | str (s : Text)
  | array (items : List (Operand J))
  | object (fields : List (String × Operand J))
  /-- `ColumnRef` -/
  | ref (column : String)
  | condition (op : ConditionOp) (a b : Operand J)
  | junction (op : Junction) (conditions : List (Operand J))
  | expression (op : ExpressionOp) (a b c : Operand J)
  /-- Anything else. -/
  | other (json : J)

structure Values (J : Type) where
  /-- `JSON.stringify` of a stored JSON value. -/
  stringify : J → Sqlite.Text
  /-- The JSON value of a cell, or why it is none. -/
  encode : Operand J → Except String J
  /-- `JSON.stringify(value) ?? String(value)` -/
  describe : Operand J → String

/-- `invalid("args", message)` -/
def invalid {α : Type} (message : String) : Except String α := .error message

def SAFE : Int := 9007199254740991

def isSafeInteger (n : Int) : Bool := -SAFE ≤ n && n ≤ SAFE

variable {J : Type}

def checkScalar (js : Values J) (type : ColumnType) (value : Operand J) (what : String) :
    Except String Scalar :=
  match type, value with
  | .str, .str s =>
    match storedText s with
    | some s => .ok (.str s)
    | none => invalid s!"{what}: text may not contain NUL"
  | .int, .int n =>
    if isSafeInteger n then .ok (.int n)
    else invalid s!"{what}: {js.describe value} is not a {type.name} value"
  | .bool, .bool b => .ok (.bool b)
  | type, value => invalid s!"{what}: {js.describe value} is not a {type.name} value"

/-! ## What is stored -/

theorem isSafeInteger_iff {n : Int} :
    isSafeInteger n = true ↔ -9007199254740991 ≤ n ∧ n ≤ 9007199254740991 := by
  rw [isSafeInteger, Bool.and_eq_true, decide_eq_true_eq, decide_eq_true_eq]
  exact Iff.rfl

def IsStored (s : Text) : Prop := Utf16.isWellFormed s = true

inductive Scalar.HasType : Scalar → ColumnType → Prop where
  | str {s : Text} (h : IsStored s) : HasType (.str s) .str
  | int {n : Int} (h : isSafeInteger n = true) : HasType (.int n) .int
  | bool (b : Bool) : HasType (.bool b) .bool

theorem isStored_storedText {text s : Text} (h : storedText text = some s) : IsStored s := by
  unfold storedText at h
  split at h
  · cases h
  · obtain rfl := Option.some.inj h
    exact Utf16.isWellFormed_toWellFormed text

theorem checkScalar_hasType {js : Values J} {type : ColumnType} {value : Operand J} {what : String}
    {s : Scalar} (h : checkScalar js type value what = .ok s) : s.HasType type := by
  unfold checkScalar at h
  split at h
  · next text =>
    split at h
    · next stored hstored =>
      cases h
      exact .str (isStored_storedText hstored)
    · cases h
  · next n =>
    split at h
    · next hsafe =>
      cases h
      exact .int hsafe
    · cases h
  · cases h
    exact .bool _
  · cases h

theorem Table.mem_byName {table : Table} {name : String} {c : Column}
    (h : table.byName name = some c) : c ∈ table.columns ∧ c.name = name :=
  ⟨List.mem_of_find?_eq_some h, by simpa using List.find?_some h⟩

/-- A row of the table: every column that is not `opt(...)` has a cell, of the column's type. -/
structure IsRow (table : Table) (row : Row J) : Prop where
  required : ∀ c ∈ table.columns, row c.name = none → c.optional = true
  scalar : ∀ c ∈ table.columns, ∀ s, row c.name = some (.scalar s) → s.HasType c.type
  json : ∀ c ∈ table.columns, ∀ value, row c.name = some (.json value) → c.type = .json

end ThreeXhaust.Chord.Store
