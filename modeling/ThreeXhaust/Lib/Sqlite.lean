import Mathlib.Data.List.Basic
import Mathlib.Algebra.Group.Int.Defs

/-!
# SQLite's expressions

Values, conditions with three truth values, expressions whose parameters are bound in the order their
`?` occur in the text, and an `UPDATE` of one row of a `STRICT` table.

Integers have 64 bits, text is compared by code point (`BINARY`) and counted in code points. What
SQLite makes of REAL numbers, where a sum leaves 64 bits or where the operands are of other storage
classes, is the `Engine`'s.

* **`Evaluates`** — an expression takes exactly these parameters and has this value; one rule for
  each form of expression.
-/

namespace Sqlite

abbrev Text := List Char

inductive Value (R : Type) where
  | null
  | int (n : Int)
  | real (r : R)
  | text (s : Text)

inductive Comparison where
  | eq | ne | lt | le | gt | ge

inductive Binary where
  | compare (op : Comparison)
  | add
  | sub
  | max
  | min
  | concat
  | coalesce
  /-- `substr(x, start)` -/
  | substr

inductive Unary where
  | not
  | isNull

inductive Ternary where
  /-- `substr(x, start, length)` -/
  | substr
  /-- `CASE WHEN a THEN b ELSE c END` -/
  | caseWhen

inductive ColumnType where
  | integer
  | text

structure Engine where
  /-- REAL numbers. -/
  Real : Type
  /-- An operation whose result leaves 64-bit integers, or with operands of other classes. -/
  other : Binary → Value Real → Value Real → Value Real
  substr : Value Real → Value Real → Value Real → Value Real
  /-- How values of different classes, or REAL numbers, compare. -/
  order : Value Real → Value Real → Ordering
  /-- Whether a REAL number or a text counts as true. -/
  truth : Value Real → Bool
  /-- What a `STRICT` column makes of a value of another class; none where it refuses it. -/
  integer : Value Real → Option Int
  text : Value Real → Option Text

inductive Expr (R : Type) where
  /-- A literal or a bound parameter. -/
  | value (v : Value R)
  /-- `?` -/
  | param
  | column (name : String)
  | unary (op : Unary) (a : Expr R)
  | binary (op : Binary) (a b : Expr R)
  | ternary (op : Ternary) (a b c : Expr R)
  /-- Joined by `AND`. -/
  | and (conditions : List (Expr R))
  /-- Joined by `OR`. -/
  | or (conditions : List (Expr R))
  /-- `a IN (SELECT value FROM json_each(?))` -/
  | inJsonEach (a : Expr R)
  /-- The same with its parameter bound. -/
  | among (a : Expr R) (values : List (Value R))

/-- What is bound to a `?`: a value, or the JSON text of an array, which `json_each` reads back. -/
inductive Param (R : Type) where
  | value (v : Value R)
  | array (values : List (Value R))

/-! ## Operations -/

/-- `BINARY`: text by code point. -/
@[grind =] def binary : Text → Text → Ordering
  | [], [] => .eq
  | [], _ :: _ => .lt
  | _ :: _, [] => .gt
  | c :: a, d :: b => if c.toNat < d.toNat then .lt else if d.toNat < c.toNat then .gt else binary a b

def Comparison.holds : Comparison → Ordering → Bool
  | .eq, o => o == .eq
  | .ne, o => o != .eq
  | .lt, o => o == .lt
  | .le, o => o != .gt
  | .gt, o => o == .gt
  | .ge, o => o != .lt

def fits (n : Int) : Bool := -2 ^ 63 ≤ n && n < 2 ^ 63

namespace Value

variable {R : Type}

def ofTruth : Option Bool → Value R
  | none => .null
  | some true => .int 1
  | some false => .int 0

def isNull : Value R → Bool
  | .null => true
  | _ => false

end Value

def Truth.not : Option Bool → Option Bool := Option.map (!·)

def Truth.and : Option Bool → Option Bool → Option Bool
  | some false, _ => some false
  | _, some false => some false
  | some true, some true => some true
  | _, _ => none

def Truth.or : Option Bool → Option Bool → Option Bool
  | some true, _ => some true
  | _, some true => some true
  | some false, some false => some false
  | _, _ => none

namespace Engine

variable (E : Engine)

def truthOf : Value E.Real → Option Bool
  | .null => none
  | .int n => some (n ≠ 0)
  | v => some (E.truth v)

def orderOf : Value E.Real → Value E.Real → Ordering
  | .int m, .int n => compare m n
  | .text s, .text t => binary s t
  | a, b => E.order a b

def arithmetic (op : Binary) (exact : Int → Int → Int) (a b : Value E.Real) : Value E.Real :=
  match a, b with
  | .int m, .int n => if fits (exact m n) then .int (exact m n) else E.other op a b
  | _, _ => E.other op a b

/-- A binary operation on values that are not `NULL`. -/
def applyBinary (op : Binary) (a b : Value E.Real) : Value E.Real :=
  match op with
  | .compare c => .ofTruth (some (c.holds (E.orderOf a b)))
  | .add => E.arithmetic op (· + ·) a b
  | .sub => E.arithmetic op (· - ·) a b
  | .max => if E.orderOf a b = .lt then b else a
  | .min => if E.orderOf a b = .gt then b else a
  | .concat =>
    match a, b with
    | .text s, .text t => .text (s ++ t)
    | _, _ => E.other op a b
  | .coalesce => a
  | .substr =>
    match a, b with
    | .text s, .int start => if 1 ≤ start then .text (s.drop (start - 1).toNat) else E.other op a b
    | _, _ => E.other op a b

def binaryOf (op : Binary) (a b : Value E.Real) : Value E.Real :=
  match op, a, b with
  | .coalesce, .null, b => b
  | .coalesce, a, _ => a
  | _, .null, _ => .null
  | _, _, .null => .null
  | op, a, b => E.applyBinary op a b

def unaryOf (op : Unary) (a : Value E.Real) : Value E.Real :=
  match op with
  | .not => .ofTruth (Truth.not (E.truthOf a))
  | .isNull => .ofTruth (some a.isNull)

def ternaryOf (op : Ternary) (a b c : Value E.Real) : Value E.Real :=
  match op with
  | .caseWhen => if E.truthOf a = some true then b else c
  | .substr =>
    match a, b, c with
    | .null, _, _ => .null
    | _, .null, _ => .null
    | _, _, .null => .null
    | .text s, .int start, .int length =>
      if 1 ≤ start ∧ 0 ≤ length then .text ((s.drop (start - 1).toNat).take length.toNat)
      else E.substr a b c
    | _, _, _ => E.substr a b c

/-- `a IN (…)`: false where there is no value, also of `NULL`. -/
def amongOf (a : Value E.Real) (values : List (Value E.Real)) : Value E.Real :=
  .ofTruth (values.foldr (fun v rest =>
    Truth.or (E.truthOf (E.binaryOf (.compare .eq) a v)) rest) (some false))

end Engine

/-! ## `NULL` -/

section Null

variable (E : Engine) {op : Binary} {a b : Value E.Real}

theorem binaryOf_null_left (hop : op ≠ .coalesce) (b : Value E.Real) :
    E.binaryOf op .null b = .null := by
  cases op <;> first | rfl | exact absurd rfl hop

theorem binaryOf_null_right (hop : op ≠ .coalesce) (a : Value E.Real) :
    E.binaryOf op a .null = .null := by
  cases op <;> first | cases a <;> rfl | exact absurd rfl hop

theorem binaryOf_of_ne_null (ha : a ≠ .null) (hb : b ≠ .null) :
    E.binaryOf op a b = E.applyBinary op a b := by
  cases a with
  | null => exact absurd rfl ha
  | int m => cases b <;> first | exact absurd rfl hb | cases op <;> rfl
  | real r => cases b <;> first | exact absurd rfl hb | cases op <;> rfl
  | text s => cases b <;> first | exact absurd rfl hb | cases op <;> rfl

theorem coalesce_of_ne_null (ha : a ≠ .null) (b : Value E.Real) :
    E.binaryOf .coalesce a b = a := by
  cases a <;> first | exact absurd rfl ha | rfl

theorem coalesce_null (b : Value E.Real) : E.binaryOf .coalesce .null b = b := rfl

end Null

/-! ## Parameters -/

section Bind

variable {R : Type}

mutual

/-- The expression with its parameters bound, and the parameters that are left. -/
@[grind =] def bind : Expr R → List (Param R) → Expr R × List (Param R)
  | .param, .value v :: params => (.value v, params)
  | .param, .array _ :: params => (.value .null, params)
  | .param, [] => (.param, [])
  | .value v, params => (.value v, params)
  | .column name, params => (.column name, params)
  | .unary op a, params => ((bind a params).map (.unary op) id)
  | .binary op a b, params =>
    let (a, params) := bind a params
    let (b, params) := bind b params
    (.binary op a b, params)
  | .ternary op a b c, params =>
    let (a, params) := bind a params
    let (b, params) := bind b params
    let (c, params) := bind c params
    (.ternary op a b c, params)
  | .and conditions, params => (bindAll conditions params).map .and id
  | .or conditions, params => (bindAll conditions params).map .or id
  | .inJsonEach a, params =>
    match bind a params with
    | (a, .array values :: params) => (.among a values, params)
    | (a, .value v :: params) => (.among a [v], params)
    | (a, []) => (.inJsonEach a, [])
  | .among a values, params => (bind a params).map (.among · values) id

@[grind =] def bindAll : List (Expr R) → List (Param R) → List (Expr R) × List (Param R)
  | [], params => ([], params)
  | a :: rest, params =>
    let (a, params) := bind a params
    let (rest, params) := bindAll rest params
    (a :: rest, params)

end

end Bind

/-! ## Evaluation -/

section Eval

variable (E : Engine) (row : String → Value E.Real)

mutual

/-- What is not bound is `NULL`. -/
@[grind =] def eval : Expr E.Real → Value E.Real
  | .value v => v
  | .param => .null
  | .column name => row name
  | .unary op a => E.unaryOf op (eval a)
  | .binary op a b => E.binaryOf op (eval a) (eval b)
  | .ternary op a b c => E.ternaryOf op (eval a) (eval b) (eval c)
  | .and conditions => .ofTruth (evalAnd conditions)
  | .or conditions => .ofTruth (evalOr conditions)
  | .inJsonEach _ => .ofTruth (some false)
  | .among a values => E.amongOf (eval a) values

@[grind =] def evalAnd : List (Expr E.Real) → Option Bool
  | [] => some true
  | a :: rest => Truth.and (E.truthOf (eval a)) (evalAnd rest)

@[grind =] def evalOr : List (Expr E.Real) → Option Bool
  | [] => some false
  | a :: rest => Truth.or (E.truthOf (eval a)) (evalOr rest)

end

end Eval

/-! ## Updates -/

structure Column where
  name : String
  type : ColumnType
  notNull : Bool
  /-- `CHECK`, of the integers of the column. -/
  check : Int → Bool

section Update

variable (E : Engine)

/-- What a column of a `STRICT` table keeps of a value; none where its constraints fail. -/
def Column.keep (c : Column) (v : Value E.Real) : Option (Value E.Real) :=
  match v with
  | .null => if c.notNull then none else some .null
  | v =>
    match c.type with
    | .integer => do
      let n ← match v with
        | .int n => some n
        | v => E.integer v
      if c.check n then some (.int n) else none
    | .text =>
      match v with
      | .text s => some (.text s)
      | v => (E.text v).map .text

/-- `SET` of some columns: every right side is taken of the row before, and the last assignment to a
column counts. -/
@[grind =] def assign (columns : List Column) (row : String → Value E.Real) :
    List (String × Expr E.Real) → (String → Value E.Real) → Option (String → Value E.Real)
  | [], next => some next
  | (name, e) :: rest, next => do
    let column ← columns.find? (·.name = name)
    let v ← column.keep E (eval E row e)
    assign columns row rest fun other => if other = name then v else next other

@[grind =] def bindSet {R : Type} : List (String × Expr R) → List (Param R) →
    List (String × Expr R) × List (Param R)
  | [], params => ([], params)
  | (name, e) :: rest, params =>
    let (e, params) := bind e params
    let (rest, params) := bindSet rest params
    ((name, e) :: rest, params)

/-- `UPDATE` of a row: none where it fails. -/
def update (columns : List Column) (set : List (String × Expr E.Real))
    (params : List (Param E.Real)) (row : String → Value E.Real) :
    Option (String → Value E.Real) :=
  assign E columns row (bindSet set params).1 row

end Update

/-! ## What an expression comes to -/

section Evaluates

variable (E : Engine) (row : String → Value E.Real)

/-- The expression takes these parameters, and none of those behind them, and has this value. -/
def Evaluates (e : Expr E.Real) (params : List (Param E.Real)) (v : Value E.Real) : Prop :=
  ∀ rest, ∃ bound, bind e (params ++ rest) = (bound, rest) ∧ eval E row bound = v

def EvaluatesAnd (es : List (Expr E.Real)) (params : List (Param E.Real)) (v : Option Bool) :
    Prop :=
  ∀ rest, ∃ bound, bindAll es (params ++ rest) = (bound, rest) ∧ evalAnd E row bound = v

def EvaluatesOr (es : List (Expr E.Real)) (params : List (Param E.Real)) (v : Option Bool) :
    Prop :=
  ∀ rest, ∃ bound, bindAll es (params ++ rest) = (bound, rest) ∧ evalOr E row bound = v

variable {E row} {a b c : Expr E.Real} {es : List (Expr E.Real)} {x y z : Value E.Real}
  {ps qs rs : List (Param E.Real)} {v w : Option Bool}

theorem Evaluates.unary (ha : Evaluates E row a ps x) (op : Unary) :
    Evaluates E row (.unary op a) ps (E.unaryOf op x) := by
  intro rest
  obtain ⟨a', hbind, heval⟩ := ha rest
  exact ⟨.unary op a', by rw [bind, hbind]; rfl, by rw [eval, heval]⟩

theorem Evaluates.binary (ha : Evaluates E row a ps x) (hb : Evaluates E row b qs y)
    (op : Binary) : Evaluates E row (.binary op a b) (ps ++ qs) (E.binaryOf op x y) := by
  intro rest
  obtain ⟨a', hbind, heval⟩ := ha (qs ++ rest)
  obtain ⟨b', hbind', heval'⟩ := hb rest
  refine ⟨.binary op a' b', ?_, by rw [eval, heval, heval']⟩
  rw [bind, List.append_assoc, hbind]
  dsimp only
  rw [hbind']

theorem Evaluates.ternary (ha : Evaluates E row a ps x) (hb : Evaluates E row b qs y)
    (hc : Evaluates E row c rs z) (op : Ternary) :
    Evaluates E row (.ternary op a b c) (ps ++ qs ++ rs) (E.ternaryOf op x y z) := by
  intro rest
  obtain ⟨a', hbind, heval⟩ := ha (qs ++ (rs ++ rest))
  obtain ⟨b', hbind', heval'⟩ := hb (rs ++ rest)
  obtain ⟨c', hbind'', heval''⟩ := hc rest
  refine ⟨.ternary op a' b' c', ?_, by rw [eval, heval, heval', heval'']⟩
  rw [bind, List.append_assoc, List.append_assoc, hbind]
  dsimp only
  rw [hbind']
  dsimp only
  rw [hbind'']

theorem Evaluates.inJsonEach (ha : Evaluates E row a [] x) (values : List (Value E.Real)) :
    Evaluates E row (.inJsonEach a) [.array values] (E.amongOf x values) := by
  intro rest
  obtain ⟨a', hbind, heval⟩ := ha (.array values :: rest)
  refine ⟨.among a' values, ?_, by rw [eval, heval]⟩
  rw [List.nil_append] at hbind
  rw [bind, List.singleton_append, hbind]

theorem EvaluatesAnd.and (h : EvaluatesAnd E row es ps v) :
    Evaluates E row (.and es) ps (.ofTruth v) := by
  intro rest
  obtain ⟨es', hbind, heval⟩ := h rest
  exact ⟨.and es', by rw [bind, hbind]; rfl, by rw [eval, heval]⟩

theorem EvaluatesOr.or (h : EvaluatesOr E row es ps v) :
    Evaluates E row (.or es) ps (.ofTruth v) := by
  intro rest
  obtain ⟨es', hbind, heval⟩ := h rest
  exact ⟨.or es', by rw [bind, hbind]; rfl, by rw [eval, heval]⟩

end Evaluates

end Sqlite
