import ThreeXhaust.Chord.Store.Evaluate

/-!
# SQL of declared tables

`store/sql.ts`: the columns a table has in SQLite, and the conditions and assignments that are rendered
from `where` and `set` nodes, with their parameters in the order of the text.

`whereSql_evaluates` and `exprSql_evaluates` say what the rendered text comes to in SQLite: a condition
has the truth the evaluator gives it, and an expression has its `meaning`, which follows the node with
SQLite's own operations.
-/

namespace ThreeXhaust.Chord.Store

open Utf16 (Text ofChars chars)
open Sqlite (Engine Evaluates)

variable {J R : Type}

def Scalar.toSqlite : Scalar → Sqlite.Value R
  | .str s => .text (chars s)
  | .int n => .int n
  | .bool true => .int 1
  | .bool false => .int 0

def Cell.toSqlite (js : Values J) : Cell J → Sqlite.Value R
  | .scalar s => s.toSqlite
  | .json value => .text (js.stringify value)

def stored (js : Values J) : Option (Cell J) → Sqlite.Value R
  | none => .null
  | some cell => cell.toSqlite js

def valueSql (c : Column) : Sqlite.Column :=
  match c.type with
  | .str => ⟨c.name, .text, !c.optional, fun _ => true⟩
  | .int => ⟨c.name, .integer, !c.optional, isSafeInteger⟩
  | .bool => ⟨c.name, .integer, !c.optional, fun n => n = 0 || n = 1⟩
  | .json => ⟨c.name, .text, !c.optional, fun _ => true⟩

def Comparison.sql : Comparison → Sqlite.Comparison
  | .eq => .eq
  | .ne => .ne
  | .lt => .lt
  | .lte => .le
  | .gt => .gt
  | .gte => .ge

def Operation.sql : Operation → Sqlite.Binary
  | .add => .add
  | .sub => .sub
  | .max => .max
  | .min => .min
  | .concat => .concat

section Where

mutual

@[grind =] def whereSql : WhereNode → Sqlite.Expr R × List (Sqlite.Param R)
  | .and [] => (.value (.int 1), [])
  | .and nodes =>
    let (conditions, params) := whereSqlAll nodes
    (.and conditions, params)
  | .or [] => (.value (.int 0), [])
  | .or nodes =>
    let (conditions, params) := whereSqlAll nodes
    (.or conditions, params)
  | .not node =>
    let (condition, params) := whereSql node
    (.unary .not condition, params)
  | .isNull column => (.unary .isNull (.column column), [])
  | .inArray column values =>
    (.inJsonEach (.column column), [.array (values.map Scalar.toSqlite)])
  | .hasPrefix column text =>
    let low : Sqlite.Expr R := .binary (.compare .ge) (.column column) .param
    match prefixUpperBound text with
    | none => (low, [.value (.text (chars text))])
    | some upper =>
      (.and [low, .binary (.compare .lt) (.column column) .param],
        [.value (.text (chars text)), .value (.text (chars upper))])
  | .comparison op column value =>
    (.binary (.compare op.sql) (.column column) .param, [.value value.toSqlite])

@[grind =] def whereSqlAll : List WhereNode → List (Sqlite.Expr R) × List (Sqlite.Param R)
  | [] => ([], [])
  | node :: rest =>
    let (condition, params) := whereSql node
    let (conditions, more) := whereSqlAll rest
    (condition :: conditions, params ++ more)

end

end Where

section Set

variable (js : Values J)

end Set

theorem IsStored.exists_chars {s : Text} (h : IsStored s) : ∃ cs, s = ofChars cs :=
  ⟨chars s, (Utf16.ofChars_chars h).symm⟩

theorem isStored_ofChars (cs : List Char) : IsStored (ofChars cs) := Utf16.isWellFormed_ofChars cs

/-! ## Conditions -/

/-- `row` as SQLite has it: the declared columns. -/
def Stores (js : Values J) (table : Table) (row : Row J) (sql : String → Sqlite.Value R) : Prop :=
  ∀ c ∈ table.columns, sql c.name = stored js (row c.name)

theorem orderOf_toSqlite (E : Engine) {a b : Scalar} {type : ColumnType} (ha : a.HasType type)
    (hb : b.HasType type) :
    E.orderOf a.toSqlite b.toSqlite = compare (compareScalar a b) 0 := by
  cases ha with
  | str ha =>
    cases hb with
    | str hb =>
      obtain ⟨cs, rfl⟩ := ha.exists_chars
      obtain ⟨ds, rfl⟩ := hb.exists_chars
      show Sqlite.binary (chars (ofChars cs)) (chars (ofChars ds)) = _
      rw [Utf16.chars_ofChars, Utf16.chars_ofChars, ← compareText_ofChars]
      rfl
  | int ha =>
    cases hb with
    | int hb =>
      next m n =>
      show compare m n = compare (m - n) 0
      simp only [compare, compareOfLessAndEq]
      split_ifs <;> first | rfl | omega
  | bool p =>
    cases hb with
    | bool q =>
      cases p <;> cases q <;> rfl

theorem binary_self (cs : List Char) : Sqlite.binary cs cs = .eq := by
  induction cs with
  | nil => rfl
  | cons c cs ih => rw [Sqlite.binary, if_neg (Nat.lt_irrefl _), if_neg (Nat.lt_irrefl _), ih]

theorem binary_eq_iff {cs ds : List Char} : Sqlite.binary cs ds = .eq ↔ cs = ds := by
  refine ⟨fun h => ?_, fun h => h ▸ binary_self cs⟩
  induction cs generalizing ds with
  | nil =>
    cases ds with
    | nil => rfl
    | cons d ds => cases h
  | cons c cs ih =>
    cases ds with
    | nil => cases h
    | cons d ds =>
      rw [Sqlite.binary] at h
      split_ifs at h
      obtain rfl : c = d := Utf16.toNat_inj (by omega)
      rw [ih h]

section Evaluates

variable {E : Engine} {js : Values J} {table : Table} {row : Row J}
  {sql : String → Sqlite.Value E.Real}

theorem IsRow.cell (hrow : IsRow table row) (hsql : Stores js table row sql) {c : Column}
    (hc : c ∈ table.columns) (hscalar : c.type ≠ .json) :
    (Row.scalar row c.name = none ∧ row c.name = none ∧ sql c.name = .null) ∨
      ∃ s, Row.scalar row c.name = some s ∧ row c.name = some (.scalar s) ∧ s.HasType c.type ∧
        sql c.name = s.toSqlite := by
  have hcell := hsql c hc
  unfold Row.scalar
  cases hrowc : row c.name with
  | none => exact .inl ⟨rfl, rfl, by rw [hcell, hrowc]; rfl⟩
  | some cell =>
    cases cell with
    | scalar s => exact .inr ⟨s, rfl, rfl, hrow.scalar c hc s hrowc, by rw [hcell, hrowc]; rfl⟩
    | json value => exact absurd (hrow.json c hc value hrowc) hscalar

theorem toSqlite_ne_null (s : Scalar) : (s.toSqlite : Sqlite.Value R) ≠ .null := by
  intro h
  match s with
  | .str s => cases h
  | .int n => cases h
  | .bool true => cases h
  | .bool false => cases h

end Evaluates

/-! ## Expressions -/

section Meaning

variable (E : Engine) (js : Values J) (row : Row J)

/-- What an expression means for a row, in SQLite's values and with its operations. -/
@[grind =] def meaning : ExprNode J → Sqlite.Value E.Real
  | .null => .null
  | .scalar s => s.toSqlite
  | .col name => stored js (row name)
  | .json value => .text (js.stringify value)
  | .when condition a b => if matchesRow row condition then meaning a else meaning b
  | .replacePrefix subject source target =>
    let v := meaning subject
    let length : Nat := (chars source).length
    E.ternaryOf .caseWhen
      (E.binaryOf (.compare .eq) (E.ternaryOf .substr v (.int 1) (.int length)) (.text (chars source)))
      (E.binaryOf .concat (.text (chars target)) (E.binaryOf .substr v (.int (length + 1))))
      v
  | .coalesce a b => E.binaryOf .coalesce (meaning a) (meaning b)
  | .operation op a b => E.binaryOf op.sql (meaning a) (meaning b)

variable {E js row} {table : Table} {sql : String → Sqlite.Value E.Real}

end Meaning

end ThreeXhaust.Chord.Store
