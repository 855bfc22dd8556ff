import ThreeXhaust.Chord.Store.Expression
import Mathlib.Data.Fintype.Option

/-!
# The JavaScript evaluator of the table vocabulary

`store/evaluate.ts`: `where` nodes over a row with SQL's three truth values, and `set` nodes applied to
a row. Nodes and rows are typed, so a comparison is of two cells of one column and an operation of two
cells of one type.
-/

namespace ThreeXhaust.Chord.Store

open Utf16 (Text)

/-- SQL's three-valued truth; none is unknown. -/
abbrev Truth := Option Bool

def both (a b : Truth) : Truth :=
  if a = some false ∨ b = some false then some false
  else if a = none ∨ b = none then none
  else some true

def either (a b : Truth) : Truth :=
  if a = some true ∨ b = some true then some true
  else if a = none ∨ b = none then none
  else some false

/-- `Number(a)`, of a cell that is no string. -/
def Scalar.number : Scalar → Int
  | .int n => n
  | .bool b => if b then 1 else 0
  | .str _ => 0

def compareScalar (a b : Scalar) : Int :=
  match a, b with
  | .str s, .str t => compareText s t
  | a, b => a.number - b.number

variable {J : Type}

def Row.scalar (row : Row J) (column : String) : Option Scalar :=
  match row column with
  | some (.scalar s) => some s
  | _ => none

section Where

variable (row : Row J)

mutual

@[grind =] def truth : WhereNode → Truth
  | .and nodes => truthAll nodes (some true)
  | .or nodes => truthAny nodes (some false)
  | .not node => (truth node).map (!·)
  | .isNull column => some (row column).isNone
  | .inArray column values =>
    -- SQL: `x IN ()` is false, for a `NULL` x too
    if values.isEmpty then some false
    else
      match Row.scalar row column with
      | none => none
      | some value => some (values.any fun each => compareScalar value each = 0)
  | .hasPrefix column text =>
    match Row.scalar row column with
    | some (.str value) => some (text.isPrefixOf value)
    | _ => none
  | .comparison op column operand =>
    match Row.scalar row column with
    | none => none
    | some value =>
      let order := compareScalar value operand
      some <| match op with
        | .eq => order = 0
        | .ne => order ≠ 0
        | .lt => order < 0
        | .lte => order ≤ 0
        | .gt => order > 0
        | .gte => order ≥ 0

/-- The `reduce` over the nodes of an `and`. -/
@[grind =] def truthAll : List WhereNode → Truth → Truth
  | [], all => all
  | each :: rest, all =>
    truthAll rest (if all = some false then some false else both all (truth each))

/-- The `reduce` over the nodes of an `or`. -/
@[grind =] def truthAny : List WhereNode → Truth → Truth
  | [], any => any
  | each :: rest, any =>
    truthAny rest (if any = some true then some true else either any (truth each))

end

def matchesRow (node : WhereNode) : Bool := truth row node = some true

end Where

/-- A sum of two safe integers as a double. -/
def toDouble (n : Int) : Int :=
  if n % 2 = 0 ∨ n.natAbs ≤ 2 ^ 53 then n else if (n + 1) % 4 = 0 then n + 1 else n - 1

/-- `add` and `sub`. -/
def evaluateSum (table : String) (op : String) (sum : Int) : Except String (Option (Cell J)) :=
  let result := toDouble sum
  if isSafeInteger result then .ok (some (.scalar (.int result)))
  else invalid s!"{table}: {op} gives {result}, outside ±(2^53 - 1)"

/-- An operation on two cells that are not `NULL`. -/
def evaluateOperation (table : String) (op : Operation) (a b : Scalar) :
    Except String (Option (Cell J)) :=
  match op with
  | .concat =>
    match a, b with
    | .str s, .str t => .ok (some (.scalar (.str (s ++ t))))
    | _, _ => .ok none
  | .max => .ok (some (.scalar (if compareScalar a b ≥ 0 then a else b)))
  | .min => .ok (some (.scalar (if compareScalar a b ≤ 0 then a else b)))
  | .add => evaluateSum table op.name (a.number + b.number)
  | .sub => evaluateSum table op.name (a.number - b.number)

section Set

variable (row : Row J) (table : String)

@[grind =] def evaluate : ExprNode J → Except String (Option (Cell J))
  | .null => .ok none
  | .scalar s => .ok (some (.scalar s))
  | .col name => .ok (row name)
  | .json value => .ok (some (.json value))
  | .when condition a b => if matchesRow row condition then evaluate a else evaluate b
  | .coalesce a b => do
    match ← evaluate a with
    | some value => return some value
    | none => evaluate b
  | .replacePrefix subject source target => do
    match ← evaluate subject with
    | some (.scalar (.str value)) =>
      if source.isPrefixOf value then
        return some (.scalar (.str (target ++ value.drop source.length)))
      else return some (.scalar (.str value))
    | value => return value
  | .operation op x y => do
    let a ← evaluate x
    let b ← evaluate y
    match a, b with
    | some (.scalar a), some (.scalar b) => evaluateOperation table op a b
    | _, _ => return none

end Set

/-! ## What the operators are -/

theorem and_assoc (a b c : Truth) : Sqlite.Truth.and (Sqlite.Truth.and a b) c =
    Sqlite.Truth.and a (Sqlite.Truth.and b c) := by
  revert a b c
  decide

theorem or_assoc (a b c : Truth) : Sqlite.Truth.or (Sqlite.Truth.or a b) c =
    Sqlite.Truth.or a (Sqlite.Truth.or b c) := by
  revert a b c
  decide

theorem toDouble_of_safe {n : Int} (h : isSafeInteger n = true) : toDouble n = n := by
  rw [isSafeInteger_iff] at h
  rw [toDouble, if_pos (.inr (by omega))]

theorem isSafeInteger_toDouble (n : Int) : isSafeInteger (toDouble n) = isSafeInteger n := by
  rw [Bool.eq_iff_iff, isSafeInteger_iff, isSafeInteger_iff, toDouble]
  split_ifs <;> omega

theorem evaluateSum_safe {table op : String} {n : Int} (h : isSafeInteger n = true) :
    evaluateSum (J := J) table op n = .ok (some (.scalar (.int n))) := by
  unfold evaluateSum
  dsimp only
  rw [toDouble_of_safe h, if_pos h]

theorem evaluateSum_unsafe (table op : String) {n : Int} (h : isSafeInteger n = false) :
    ∃ message, evaluateSum (J := J) table op n = .error message := by
  unfold evaluateSum
  dsimp only
  rw [isSafeInteger_toDouble, h, if_neg Bool.false_ne_true]
  exact ⟨_, rfl⟩

end ThreeXhaust.Chord.Store
