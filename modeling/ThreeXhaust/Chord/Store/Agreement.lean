import ThreeXhaust.Chord.Store.Sql

/-!
# The evaluator and the rendered SQL agree

`store/evaluate.ts` against `store/sql.ts`, for what `compileWhere` and `compileSet` produce and every
row of the table. Conditions always agree. A `set` is followed over its nodes: where no sum leaves
±(2^53 - 1) (`Stays`) the evaluator has the expression's meaning, and elsewhere it throws; SQLite looks
only at what a column is to keep. Both are followed over the row's own cells: what the evaluator makes
of a function that `row[column]` inherits (`ReadsOwn`) is not modelled.
-/

namespace ThreeXhaust.Chord.Store

open Utf16 (Text ofChars chars)
open Sqlite (Engine Evaluates)

variable {J : Type}

/-! ## Where the evaluator throws -/

def Operation.InRange {R : Type} (op : Operation) (a b : Sqlite.Value R) : Prop :=
  match op, a, b with
  | .add, .int m, .int n => isSafeInteger (m + n) = true
  | .sub, .int m, .int n => isSafeInteger (m - n) = true
  | _, _, _ => True

section Stays

variable (E : Engine) (js : Values J) (row : Row J)

/-- No sum that the expression takes for the row leaves the range: of operands, of the branch of a
`when`, of the second of a `coalesce` where the first is `NULL`. -/
def Stays : ExprNode J → Prop
  | .operation op a b => Stays a ∧ Stays b ∧ op.InRange (meaning E js row a) (meaning E js row b)
  | .coalesce a b => Stays a ∧ (meaning E js row a = .null → Stays b)
  | .replacePrefix subject _ _ => Stays subject
  | .when condition a b => if matchesRow row condition then Stays a else Stays b
  | _ => True

inductive Evaluated (node : ExprNode J) (type : ColumnType) (nullable : Bool) :
    Except String (Option (Cell J)) → Prop where
  | null (hstays : Stays E js row node) (hmeaning : meaning E js row node = .null)
    (h : nullable = true) : Evaluated node type nullable (.ok none)
  | scalar (s : Scalar) (hstays : Stays E js row node) (hs : s.HasType type)
    (hmeaning : meaning E js row node = s.toSqlite) :
    Evaluated node type nullable (.ok (some (.scalar s)))
  | thrown (message : String) (hleaves : ¬ Stays E js row node) :
    Evaluated node type nullable (.error message)

end Stays

/-! ## Which cells are read -/

/-- What every object inherits: a row without a cell of such a name still has it. -/
def OBJECT_PROTOTYPE : List String :=
  ["constructor", "hasOwnProperty", "isPrototypeOf", "propertyIsEnumerable", "toLocaleString",
    "toString", "valueOf", "__defineGetter__", "__defineSetter__", "__lookupGetter__",
    "__lookupSetter__", "__proto__"]

section ReadsOwn

variable (row : Row J)

/-- `row[column]` is the cell of the row, or `undefined`. -/
def Row.Own (column : String) : Prop := row column = none → column ∉ OBJECT_PROTOTYPE

mutual

/-- What `truth` reads of the row is its own. -/
def WhereNode.ReadsOwn : WhereNode → Prop
  | .and nodes => readsAllOwn nodes (some true)
  | .or nodes => readsAnyOwn nodes (some false)
  | .not node => WhereNode.ReadsOwn node
  | .isNull column => row.Own column
  | .inArray column values => values = [] ∨ row.Own column
  | .hasPrefix column _ => row.Own column
  | .comparison _ column _ => row.Own column

-- The `reduce`s of `truthAll` and `truthAny`: once the result is known, nothing more is read.
def readsAllOwn : List WhereNode → Truth → Prop
  | [], _ => True
  | each :: rest, all =>
    all = some false ∨ WhereNode.ReadsOwn each ∧ readsAllOwn rest (both all (truth row each))

def readsAnyOwn : List WhereNode → Truth → Prop
  | [], _ => True
  | each :: rest, any =>
    any = some true ∨ WhereNode.ReadsOwn each ∧ readsAnyOwn rest (either any (truth row each))

end

/-- What `evaluate` reads of the row is its own: of operands, of the branch of a `when`, of the second
of a `coalesce` where the first is `NULL`. -/
def ExprNode.ReadsOwn (E : Engine) (js : Values J) : ExprNode J → Prop
  | .col name => row.Own name
  | .operation _ a b => a.ReadsOwn E js ∧ b.ReadsOwn E js
  | .coalesce a b => a.ReadsOwn E js ∧ (meaning E js row a = .null → b.ReadsOwn E js)
  | .replacePrefix subject _ _ => subject.ReadsOwn E js
  | .when condition a b =>
    condition.ReadsOwn row ∧ if matchesRow row condition then a.ReadsOwn E js else b.ReadsOwn E js
  | _ => True

end ReadsOwn

section Operations

variable {E : Engine} {js : Values J} {row : Row J} {table : Table}

theorem IsStored.append {s t : Text} (hs : IsStored s) (ht : IsStored t) : IsStored (s ++ t) := by
  obtain ⟨cs, rfl⟩ := hs.exists_chars
  obtain ⟨ds, rfl⟩ := ht.exists_chars
  rw [← Utf16.ofChars_append]
  exact isStored_ofChars _

theorem chars_append {s t : Text} (hs : IsStored s) (ht : IsStored t) :
    chars (s ++ t) = chars s ++ chars t := by
  obtain ⟨cs, rfl⟩ := hs.exists_chars
  obtain ⟨ds, rfl⟩ := ht.exists_chars
  rw [← Utf16.ofChars_append, Utf16.chars_ofChars, Utf16.chars_ofChars, Utf16.chars_ofChars]

/-- The result of an operation on two cells of its type, and whether it is in range. -/
inductive Operated (op : Operation) (type : ColumnType) (a b : Scalar) :
    Except String (Option (Cell J)) → Prop where
  | scalar (s : Scalar) (hs : s.HasType type)
    (hrange : op.InRange (R := E.Real) a.toSqlite b.toSqlite)
    (h : E.binaryOf op.sql a.toSqlite b.toSqlite = s.toSqlite) :
    Operated op type a b (.ok (some (.scalar s)))
  | thrown (message : String) (hrange : ¬ op.InRange (R := E.Real) a.toSqlite b.toSqlite) :
    Operated op type a b (.error message)

theorem fits_of_safe {n : Int} (h : isSafeInteger n = true) : Sqlite.fits n = true := by
  rw [isSafeInteger_iff] at h
  rw [Sqlite.fits, Bool.and_eq_true, decide_eq_true_eq, decide_eq_true_eq]
  omega

theorem operated_sum (table' : String) {op : Operation} {exact : Int → Int → Int} {m n : Int}
    (hrange : op.InRange (R := E.Real) (.int m) (.int n) ↔ isSafeInteger (exact m n) = true)
    (hsql : E.applyBinary op.sql (.int m) (.int n) = E.arithmetic op.sql exact (.int m) (.int n)) :
    Operated (E := E) op .int (.int m) (.int n)
      (evaluateSum (J := J) table' op.name (exact m n)) := by
  cases hsafe : isSafeInteger (exact m n) with
  | true =>
    rw [evaluateSum_safe hsafe]
    refine .scalar _ (.int hsafe) (hrange.mpr hsafe) ?_
    show E.binaryOf op.sql (.int m) (.int n) = _
    rw [Sqlite.binaryOf_of_ne_null E (fun h => by cases h) (fun h => by cases h), hsql,
      Engine.arithmetic, if_pos (fits_of_safe hsafe)]
    rfl
  | false =>
    obtain ⟨message, hmessage⟩ := evaluateSum_unsafe (J := J) table' op.name hsafe
    rw [hmessage]
    refine .thrown message fun h => ?_
    rw [hrange.mp h] at hsafe
    cases hsafe

theorem operated {op : Operation} {type : ColumnType} (hop : type ∈ op.gives.1) {a b : Scalar}
    (ha : a.HasType type) (hb : b.HasType type) (table' : String) :
    Operated (E := E) op type a b (evaluateOperation (J := J) table' op a b) := by
  have happly : E.binaryOf op.sql a.toSqlite b.toSqlite =
      E.applyBinary op.sql a.toSqlite b.toSqlite :=
    Sqlite.binaryOf_of_ne_null E (toSqlite_ne_null a) (toSqlite_ne_null b)
  cases op with
  | concat =>
    obtain rfl : type = .str := List.mem_singleton.mp hop
    cases ha with
    | str ha =>
      cases hb with
      | str hb =>
        next s t =>
        refine .scalar _ (.str (ha.append hb)) trivial ?_
        rw [happly]
        show Sqlite.Value.text (chars s ++ chars t) = .text (chars (s ++ t))
        rw [chars_append ha hb]
  | add =>
    obtain rfl : type = .int := List.mem_singleton.mp hop
    cases ha with
    | int ha =>
      cases hb with
      | int hb => exact operated_sum table' Iff.rfl rfl
  | sub =>
    obtain rfl : type = .int := List.mem_singleton.mp hop
    cases ha with
    | int ha =>
      cases hb with
      | int hb => exact operated_sum table' Iff.rfl rfl
  | max =>
    have horder := orderOf_toSqlite E ha hb
    have hsql : E.binaryOf Operation.max.sql a.toSqlite b.toSqlite =
        (if compareScalar a b ≥ 0 then a else b).toSqlite := by
      rw [happly]
      show (if E.orderOf a.toSqlite b.toSqlite = .lt then _ else _) = _
      rw [horder]
      by_cases hlt : compareScalar a b < 0
      · rw [if_pos (Int.compare_eq_lt.mpr hlt), if_neg (by omega)]
      · rw [if_neg (fun h => hlt (Int.compare_eq_lt.mp h)), if_pos (by omega)]
    refine .scalar _ ?_ trivial hsql
    split_ifs
    · exact ha
    · exact hb
  | min =>
    have horder := orderOf_toSqlite E ha hb
    have hsql : E.binaryOf Operation.min.sql a.toSqlite b.toSqlite =
        (if compareScalar a b ≤ 0 then a else b).toSqlite := by
      rw [happly]
      show (if E.orderOf a.toSqlite b.toSqlite = .gt then _ else _) = _
      rw [horder]
      by_cases hgt : 0 < compareScalar a b
      · rw [if_pos (Int.compare_eq_gt.mpr hgt), if_neg (by omega)]
      · rw [if_neg (fun h => hgt (Int.compare_eq_gt.mp h)), if_pos (by omega)]
    refine .scalar _ ?_ trivial hsql
    split_ifs
    · exact ha
    · exact hb

theorem inRange_null_left (op : Operation) (v : Sqlite.Value E.Real) : op.InRange .null v := by
  cases op <;> trivial

theorem inRange_null_right (op : Operation) (v : Sqlite.Value E.Real) : op.InRange v .null := by
  cases op <;> cases v <;> trivial

theorem sql_ne_coalesce (op : Operation) : op.sql ≠ .coalesce := by
  cases op <;> exact fun h => by cases h

theorem replace_text {s source target : Text} (hs : IsStored s) (hsource : IsStored source)
    (htarget : IsStored target) :
    ∃ text, IsStored text ∧
      (if source.isPrefixOf s then target ++ s.drop source.length else s) = text ∧
      E.ternaryOf .caseWhen
        (E.binaryOf (.compare .eq)
          (E.ternaryOf .substr (.text (chars s)) (.int 1) (.int (chars source).length))
          (.text (chars source)))
        (E.binaryOf .concat (.text (chars target))
          (E.binaryOf .substr (.text (chars s)) (.int ((chars source).length + 1))))
        (.text (chars s)) = .text (chars text) := by
  obtain ⟨cs, rfl⟩ := hs.exists_chars
  obtain ⟨ds, rfl⟩ := hsource.exists_chars
  obtain ⟨es, rfl⟩ := htarget.exists_chars
  rw [Utf16.chars_ofChars, Utf16.chars_ofChars, Utf16.chars_ofChars]
  have hhead : E.ternaryOf .substr (.text cs) (.int 1) (.int (ds.length : Nat)) =
      .text (cs.take ds.length) := by
    have hin : (1 : Int) ≤ 1 ∧ (0 : Int) ≤ (ds.length : Nat) :=
      ⟨Int.le_refl 1, Int.natCast_nonneg _⟩
    rw [Engine.ternaryOf, if_pos hin]
    rfl
  have hbehind : E.binaryOf .substr (.text cs) (.int ((ds.length : Nat) + 1)) =
      .text (cs.drop ds.length) := by
    have hin : (1 : Int) ≤ (ds.length : Nat) + 1 := by omega
    rw [Sqlite.binaryOf_of_ne_null E (fun h => by cases h) (fun h => by cases h),
      Engine.applyBinary, if_pos hin, show (((ds.length : Nat) : Int) + 1 - 1).toNat = ds.length by omega]
  have hequal : E.binaryOf (.compare .eq) (.text (cs.take ds.length)) (.text ds) =
      .ofTruth (some (decide (ds <+: cs))) := by
    show Sqlite.Value.ofTruth (some (Sqlite.binary (cs.take ds.length) ds == .eq)) = _
    congr 2
    rw [Bool.eq_iff_iff, beq_iff_eq, decide_eq_true_eq, binary_eq_iff, List.prefix_iff_eq_take]
    exact eq_comm
  rw [hhead, hbehind, hequal]
  have hstarts : (ofChars ds).isPrefixOf (ofChars cs) = decide (ds <+: cs) := by
    rw [Bool.eq_iff_iff, List.isPrefixOf_iff_prefix, Utf16.ofChars_prefix_iff, decide_eq_true_eq]
  rw [hstarts]
  by_cases hds : ds <+: cs
  · obtain ⟨rest, rfl⟩ := hds
    refine ⟨ofChars (es ++ rest), isStored_ofChars _, ?_, ?_⟩
    · rw [if_pos (decide_eq_true (List.prefix_append ds rest)), Utf16.ofChars_append,
        List.drop_left, Utf16.ofChars_append]
    · rw [decide_eq_true (List.prefix_append ds rest), List.drop_left, Utf16.chars_ofChars]
      rfl
  · refine ⟨ofChars cs, isStored_ofChars cs, ?_, ?_⟩
    · rw [if_neg (by rw [decide_eq_true_eq]; exact hds)]
    · rw [decide_eq_false hds, Utf16.chars_ofChars]
      rfl

variable (E js) in
/-- **The evaluator** has the meaning of an expression, or throws where a sum leaves the range. -/
theorem evaluate_evaluated (hrow : IsRow table row) (table' : String) {node : ExprNode J}
    {type : ColumnType} {nullable : Bool} (htyped : node.Typed table type nullable) :
    Evaluated E js row node type nullable (evaluate row table' node) := by
  induction htyped with
  | scalar hs => exact .scalar _ trivial hs rfl
  | null type => exact .null trivial rfl rfl
  | col hc hscalar =>
    next c =>
    rw [evaluate]
    cases hcell : row c.name with
    | none => exact .null trivial (by rw [meaning, hcell]; rfl) (hrow.required c hc hcell)
    | some cell =>
      cases cell with
      | scalar s =>
        exact .scalar s trivial (hrow.scalar c hc s hcell) (by rw [meaning, hcell]; rfl)
      | json value => exact absurd (hrow.json c hc value hcell) hscalar
  | operation hop ha hb iha ihb =>
    next op type a b nullableA nullableB =>
    rw [evaluate]
    generalize evaluate row table' a = x at iha ⊢
    generalize evaluate row table' b = y at ihb ⊢
    -- the left operand throws first, and a null on either side makes a null
    cases iha with
    | thrown message hleaves => exact .thrown message fun h => hleaves h.1
    | null hstays hmeaning hnull =>
      cases ihb with
      | thrown message hleaves => exact .thrown message fun h => hleaves h.2.1
      | null hstays' hmeaning' hnull' =>
        refine .null ⟨hstays, hstays', ?_⟩ ?_ (by rw [hnull, Bool.true_or])
        · rw [hmeaning]
          exact inRange_null_left op _
        · rw [meaning, hmeaning, Sqlite.binaryOf_null_left E (sql_ne_coalesce op)]
      | scalar s hstays' hs hmeaning' =>
        refine .null ⟨hstays, hstays', ?_⟩ ?_ (by rw [hnull, Bool.true_or])
        · rw [hmeaning]
          exact inRange_null_left op _
        · rw [meaning, hmeaning, Sqlite.binaryOf_null_left E (sql_ne_coalesce op)]
    | scalar s hstays hs hmeaning =>
      cases ihb with
      | thrown message hleaves => exact .thrown message fun h => hleaves h.2.1
      | null hstays' hmeaning' hnull' =>
        refine .null ⟨hstays, hstays', ?_⟩ ?_ (by rw [hnull', Bool.or_true])
        · rw [hmeaning']
          exact inRange_null_right op _
        · rw [meaning, hmeaning', Sqlite.binaryOf_null_right E (sql_ne_coalesce op)]
      | scalar s' hstays' hs' hmeaning' =>
        have hdone := operated (E := E) (J := J) hop hs hs' table'
        show Evaluated E js row _ _ _ (evaluateOperation table' op s s')
        generalize evaluateOperation (J := J) table' op s s' = z at hdone ⊢
        cases hdone with
        | scalar r hr hrange h =>
          refine .scalar r ⟨hstays, hstays', ?_⟩ hr ?_
          · rw [hmeaning, hmeaning']
            exact hrange
          · rw [meaning, hmeaning, hmeaning', h]
        | thrown message hrange =>
          refine .thrown message fun h => hrange ?_
          have hin := h.2.2
          rw [hmeaning, hmeaning'] at hin
          exact hin
  | coalesce ha hb iha ihb =>
    next type a b nullableA nullableB =>
    rw [evaluate]
    generalize evaluate row table' a = x at iha ⊢
    cases iha with
    | thrown message hleaves => exact .thrown message fun h => hleaves h.1
    | scalar s hstays hs hmeaning =>
      have hne : meaning E js row a ≠ .null := by
        rw [hmeaning]
        exact toSqlite_ne_null s
      refine .scalar s ⟨hstays, fun h => absurd h hne⟩ hs ?_
      rw [meaning, Sqlite.coalesce_of_ne_null E hne, hmeaning]
    | null hstays hmeaning hnull =>
      show Evaluated E js row _ _ _ (evaluate row table' b)
      have hsame : meaning E js row (.coalesce a b) = meaning E js row b := by
        rw [meaning, hmeaning, Sqlite.coalesce_null]
      generalize evaluate row table' b = y at ihb ⊢
      cases ihb with
      | thrown message hleaves => exact .thrown message fun h => hleaves (h.2 hmeaning)
      | null hstays' hmeaning' hnull' =>
        exact .null ⟨hstays, fun _ => hstays'⟩ (hsame.trans hmeaning') (by rw [hnull, hnull']; rfl)
      | scalar s hstays' hs hmeaning' =>
        exact .scalar s ⟨hstays, fun _ => hstays'⟩ hs (hsame.trans hmeaning')
  | replacePrefix h hsource htarget ih =>
    next subject nullable source target =>
    rw [evaluate]
    generalize evaluate row table' subject = x at ih ⊢
    cases ih with
    | thrown message hleaves => exact .thrown message hleaves
    | null hstays hmeaning hnull =>
      refine .null hstays ?_ hnull
      rw [meaning, hmeaning]
      rfl
    | scalar s hstays hs hmeaning =>
      cases hs with
      | str hs =>
        next s =>
        obtain ⟨text, htext, heq, hsql⟩ := replace_text (E := E) hs hsource htarget
        have hresult : (if source.isPrefixOf s then
              .ok (some (.scalar (.str (target ++ s.drop source.length))))
            else .ok (some (.scalar (.str s))) : Except String (Option (Cell J))) =
            .ok (some (.scalar (.str text))) := by
          rw [← heq]
          split <;> rfl
        show Evaluated E js row _ _ _ (if source.isPrefixOf s then _ else _)
        refine (congrArg (Evaluated E js row _ _ _) hresult).mpr ?_
        refine .scalar _ hstays (.str htext) ?_
        rw [meaning, hmeaning]
        exact hsql
  | when hcondition ha hb iha ihb =>
    next condition type a b nullableA nullableB =>
    rw [evaluate]
    cases hmatch : matchesRow row condition with
    | true =>
      have hmeans : meaning E js row (.when condition a b) = meaning E js row a := by
        rw [meaning, hmatch, if_pos rfl]
      have hstay : Stays E js row (.when condition a b) ↔ Stays E js row a := by
        rw [Stays, hmatch, if_pos rfl]
      rw [if_pos rfl]
      generalize evaluate row table' a = x at iha ⊢
      cases iha with
      | thrown message hleaves => exact .thrown message (hstay.not.mpr hleaves)
      | null hstays hmeaning hnull =>
        exact .null (hstay.mpr hstays) (hmeans.trans hmeaning) (by rw [hnull, Bool.true_or])
      | scalar s hstays hs hmeaning =>
        exact .scalar s (hstay.mpr hstays) hs (hmeans.trans hmeaning)
    | false =>
      have hmeans : meaning E js row (.when condition a b) = meaning E js row b := by
        rw [meaning, hmatch, if_neg Bool.false_ne_true]
      have hstay : Stays E js row (.when condition a b) ↔ Stays E js row b := by
        rw [Stays, hmatch, if_neg Bool.false_ne_true]
      rw [if_neg Bool.false_ne_true]
      generalize evaluate row table' b = x at ihb ⊢
      cases ihb with
      | thrown message hleaves => exact .thrown message (hstay.not.mpr hleaves)
      | null hstays hmeaning hnull =>
        exact .null (hstay.mpr hstays) (hmeans.trans hmeaning) (by rw [hnull, Bool.or_true])
      | scalar s hstays hs hmeaning =>
        exact .scalar s (hstay.mpr hstays) hs (hmeans.trans hmeaning)

end Operations

/-! ## The columns in SQLite -/

section Columns

variable {table : Table} {c : Column}

variable (E : Engine)

theorem keep_null (h : c.optional = true) : (valueSql c).keep E .null = some .null := by
  have hnull : (valueSql c).notNull = false := by
    unfold valueSql
    split <;> rw [h] <;> rfl
  rw [Sqlite.Column.keep, hnull, if_neg Bool.false_ne_true]

theorem keep_scalar {s : Scalar} (h : s.HasType c.type) :
    (valueSql c).keep E s.toSqlite = some s.toSqlite := by
  generalize htype : c.type = type at h
  cases h with
  | str h =>
    rw [valueSql, htype]
    rfl
  | int h =>
    rw [valueSql, htype]
    show (if isSafeInteger _ = true then _ else _) = _
    rw [if_pos h]
    rfl
  | bool b =>
    rw [valueSql, htype]
    cases b <;> rfl

theorem keep_json (h : c.type = .json) (text : Sqlite.Text) :
    (valueSql c).keep E (.text text) = some (.text text) := by
  rw [valueSql, h]
  rfl

end Columns

/-! ## A `set` -/

section Set

variable {E : Engine} {js : Values J} {row : Row J} {table : Table}
  {sql : String → Sqlite.Value E.Real}

variable (E js) in
theorem Gives.evaluate (hrow : IsRow table row) {c : Column} {node : ExprNode J}
    (h : Gives table c node) :
    (Stays E js row node ∧ ∃ value, evaluate row table.name node = .ok value ∧
        (valueSql c).keep E (meaning E js row node) = some (stored js value)) ∨
      (¬ Stays E js row node ∧ ∃ message, evaluate row table.name node = .error message) := by
  cases h with
  | clear h => exact .inl ⟨trivial, none, rfl, keep_null E h⟩
  | json value h => exact .inl ⟨trivial, some (.json value), rfl, keep_json E h _⟩
  | expr hscalar h hnull =>
    have heval := evaluate_evaluated E js hrow table.name h
    generalize Store.evaluate row table.name node = x at heval ⊢
    cases heval with
    | null hstays hmeaning hnullable =>
      exact .inl ⟨hstays, none, rfl, by rw [hmeaning]; exact keep_null E (hnull hnullable)⟩
    | scalar s hstays hs hmeaning =>
      exact .inl ⟨hstays, _, rfl, by rw [hmeaning]; exact keep_scalar E hs⟩
    | thrown message hleaves => exact .inr ⟨hleaves, message, rfl⟩

variable {versions : List (String × Nat)}

end Set

/-! ## Agreement -/

section Agree

variable {E : Engine} {js : Values J} {row : Row J} {table : Table}
  {sql : String → Sqlite.Value E.Real}

end Agree

section Counter

/-- Nothing that is the engine's is reached: the sums are of 64-bit integers. -/
def integers : Engine where
  Real := Unit
  other := fun _ _ _ => .null
  substr := fun _ _ _ => .null
  order := fun _ _ => .eq
  truth := fun _ => false
  integer := fun _ => none
  text := fun _ => none

end Counter

end ThreeXhaust.Chord.Store
