import ThreeXhaust.Lib.Ecma.Value

/-!
# `JSON.parse` on code units

A string literal is read unit by unit: an escape gives one unit, so a half pair is read as it was
escaped and two halves that stand together are a pair again.

* **`parseValue_text`** — the parser reads a value's text back, whatever follows it.
* **`parse_text`** — JSON is read back from its text, but for the sign of its zeros.
-/

namespace Ecma

open Utf16

/-! ## The parser -/

def isSpace (u : UInt16) : Bool := u == 32 || u == 10 || u == 13 || u == 9

def skipSpace (text : Text) : Text := text.dropWhile isSpace

def hexValue (u : UInt16) : Option Nat :=
  if 48 ≤ u ∧ u ≤ 57 then some (u.toNat - 48)
  else if 97 ≤ u ∧ u ≤ 102 then some (u.toNat - 87)
  else if 65 ≤ u ∧ u ≤ 70 then some (u.toNat - 55)
  else none

def parseHex4 : Text → Option (UInt16 × Text)
  | a :: b :: c :: d :: rest => do
    let a ← hexValue a
    let b ← hexValue b
    let c ← hexValue c
    let d ← hexValue d
    some (UInt16.ofNat (16 * (16 * (16 * a + b) + c) + d), rest)
  | _ => none

def parseEscape : Text → Option (UInt16 × Text)
  | [] => none
  | u :: rest =>
    if u = 34 then some (34, rest)
    else if u = 92 then some (92, rest)
    else if u = 47 then some (47, rest)
    else if u = 98 then some (8, rest)
    else if u = 102 then some (12, rest)
    else if u = 110 then some (10, rest)
    else if u = 114 then some (13, rest)
    else if u = 116 then some (9, rest)
    else if u = 117 then parseHex4 rest
    else none

@[grind =] def parseUnits : Nat → Text → Option (Text × Text)
  | 0, _ => none
  | _ + 1, [] => none
  | fuel + 1, u :: rest =>
    if u = 34 then some ([], rest)
    else if u = 92 then do
      let (u, rest) ← parseEscape rest
      let (us, rest) ← parseUnits fuel rest
      some (u :: us, rest)
    else if u < 32 then none
    else do
      let (us, rest) ← parseUnits fuel rest
      some (u :: us, rest)

def parseString (text : Text) : Option (Text × Text) := parseUnits (text.length + 1) text

def parseWord (word : Text) (v : Value) (text : Text) : Option (Value × Text) :=
  if word.isPrefixOf text then some (v, text.drop word.length) else none

def parseNumber (text : Text) : Option (Number × Text) := do
  let (d, rest) ← Json.parseNumber (text.map character)
  some (.read (text.head? = some 45) d, text.drop (text.length - rest.length))

def setField (fields : List (Text × Value)) (key : Text) (v : Value) : List (Text × Value) :=
  if key ∈ fields.map Prod.fst then
    fields.map fun f => if f.1 = key then (key, v) else f
  else fields ++ [(key, v)]

mutual

/-- One value. `fuel` bounds the nesting; twice the length of the text is enough. -/
def parseValue : Nat → Text → Option (Value × Text)
  | 0, _ => none
  | fuel + 1, text =>
    match skipSpace text with
    | [] => none
    | u :: rest =>
      if u = 123 then
        if (skipSpace rest).head? = some 125 then some (.obj [], (skipSpace rest).tail)
        else do
          let (fields, rest) ← parseFields fuel rest
          some (.obj (fields.foldl (fun fs f => setField fs f.1 f.2) []), rest)
      else if u = 91 then
        if (skipSpace rest).head? = some 93 then some (.arr [], (skipSpace rest).tail)
        else do
          let (items, rest) ← parseItems fuel rest
          some (.arr items, rest)
      else if u = 34 then do
        let (s, rest) ← parseString rest
        some (.str s, rest)
      else if u = 116 then parseWord (units "rue") (.bool true) rest
      else if u = 102 then parseWord (units "alse") (.bool false) rest
      else if u = 110 then parseWord (units "ull") .null rest
      else do
        let (n, rest) ← parseNumber (u :: rest)
        some (.num n, rest)

@[grind =] def parseItems : Nat → Text → Option (List Value × Text)
  | 0, _ => none
  | fuel + 1, text => do
    let (v, rest) ← parseValue fuel text
    match skipSpace rest with
    | [] => none
    | u :: rest =>
      if u = 44 then do
        let (vs, rest) ← parseItems fuel rest
        some (v :: vs, rest)
      else if u = 93 then some ([v], rest)
      else none

@[grind =] def parseFields : Nat → Text → Option (List (Text × Value) × Text)
  | 0, _ => none
  | fuel + 1, text =>
    match skipSpace text with
    | [] => none
    | u :: rest =>
      if u = 34 then do
        let (k, rest) ← parseString rest
        match skipSpace rest with
        | [] => none
        | u :: rest =>
          if u = 58 then do
            let (v, rest) ← parseValue fuel rest
            match skipSpace rest with
            | [] => none
            | u :: rest =>
              if u = 44 then do
                let (fs, rest) ← parseFields fuel rest
                some ((k, v) :: fs, rest)
              else if u = 125 then some ([(k, v)], rest)
              else none
          else none
      else none

end

/-- `JSON.parse`; `none` is the `SyntaxError`. -/
def parse (text : Text) : Option Value :=
  match parseValue (2 * text.length) text with
  | none => none
  | some (v, rest) => if skipSpace rest = [] then some v else none

/-! ## Strings -/

theorem hexValue_hexUnit : ∀ n, n < 16 → hexValue (hexUnit n) = some n := by
  decide

theorem parseHex4_unit (u : UInt16) (rest : Text) :
    parseHex4 (hexUnit (u.toNat / 4096) :: hexUnit (u.toNat / 256 % 16) ::
      hexUnit (u.toNat / 16 % 16) :: hexUnit (u.toNat % 16) :: rest) = some (u, rest) := by
  have hu := u.toNat_lt
  have h1 := hexValue_hexUnit (u.toNat / 4096) (by omega)
  have h2 := hexValue_hexUnit (u.toNat / 256 % 16) (by omega)
  have h3 := hexValue_hexUnit (u.toNat / 16 % 16) (by omega)
  have h4 := hexValue_hexUnit (u.toNat % 16) (by omega)
  have hsum : 16 * (16 * (16 * (u.toNat / 4096) + u.toNat / 256 % 16) + u.toNat / 16 % 16)
      + u.toNat % 16 = u.toNat := by
    omega
  simp only [parseHex4, h1, h2, h3, h4, Option.bind_eq_bind, Option.bind_some, hsum,
    UInt16.ofNat_toNat]

theorem bind_cons (u : UInt16) (o : Option (Text × Text)) :
    (o >>= fun p => some (u :: p.1, p.2)) = o.map fun p => (u :: p.1, p.2) := by
  cases o <;> rfl

variable {u : UInt16}

theorem parseUnits_plain (hquote : u ≠ 34) (hslash : u ≠ 92) (hlow : ¬ u < 32) (fuel : Nat)
    (rest : Text) :
    parseUnits (fuel + 1) (u :: rest) = (parseUnits fuel rest).map fun p => (u :: p.1, p.2) := by
  rw [parseUnits, if_neg hquote, if_neg hslash, if_neg hlow]
  exact bind_cons u _

attribute [local simp] parseUnits parseEscape bind_cons in
theorem parseUnits_escapeUnit (fuel : Nat) (u : UInt16) (rest : Text) :
    parseUnits (fuel + 1) (escapeUnit u ++ rest) =
      (parseUnits fuel rest).map fun p => (u :: p.1, p.2) := by
  unfold escapeUnit
  split
  · next h => simp [h]
  split
  · next h => simp [h]
  split
  · next h => simp [h]
  split
  · next h => simp [h]
  split
  · next h => simp [h]
  split
  · next h => simp [h]
  split
  · next h => simp [h]
  split
  · -- a control or half a pair, as four digits
    have hescape : parseEscape (117 :: hexUnit (u.toNat / 4096) :: hexUnit (u.toNat / 256 % 16) ::
        hexUnit (u.toNat / 16 % 16) :: hexUnit (u.toNat % 16) :: rest) = some (u, rest) := by
      rw [parseEscape]
      exact parseHex4_unit u rest
    simp only [unicodeEscape, List.cons_append, List.nil_append, parseUnits]
    rw [if_neg (by decide), if_pos trivial, hescape]
    exact bind_cons u _
  · next hquote hslash _ _ _ _ _ hplain =>
    refine parseUnits_plain hquote hslash (fun hlow => hplain ?_) fuel rest
    simp [hlow]

theorem parseUnits_quoteBody (s rest : Text) (paired : Bool) (fuel : Nat) (hf : s.length < fuel) :
    parseUnits fuel (quoteBody paired s ++ rest) = some (s, rest) := by
  induction s generalizing fuel paired with
  | nil =>
    obtain ⟨fuel, rfl⟩ : ∃ f, fuel = f + 1 := ⟨fuel - 1, by simp at hf; omega⟩
    simp [quoteBody, parseUnits]
  | cons u s ih =>
    obtain ⟨fuel, rfl⟩ : ∃ f, fuel = f + 1 := ⟨fuel - 1, by simp at hf; omega⟩
    have hrest := fun paired => ih paired fuel (by simpa using hf)
    rw [quoteBody, List.append_assoc]
    split
    · next hpair =>
      -- both halves of a pair are above what is escaped
      have hsurrogate : 0xD800 ≤ u := by
        simp only [isHighSurrogate, isLowSurrogate, Bool.or_eq_true, Bool.and_eq_true,
          decide_eq_true_eq] at hpair
        rcases hpair with ⟨-, hlow, -⟩ | ⟨⟨hhigh, -⟩, -⟩
        · exact UInt16.le_trans (by decide) hlow
        · exact hhigh
      obtain ⟨hquote, hslash⟩ := surrogate_plain hsurrogate
      have hlow : ¬ u < 32 := by
        intro h
        exact absurd (UInt16.lt_of_le_of_lt hsurrogate h) (by decide)
      rw [List.singleton_append, parseUnits_plain hquote hslash hlow, hrest]
      rfl
    · rw [parseUnits_escapeUnit, hrest]
      rfl

theorem length_le_quoteBody (paired : Bool) (s : Text) :
    s.length ≤ (quoteBody paired s).length := by
  induction s generalizing paired with
  | nil => simp
  | cons u s ih =>
    have hpos : 1 ≤ (escapeUnit u).length := by
      unfold escapeUnit unicodeEscape
      repeat' split
      all_goals simp
    have hrest := ih (isHighSurrogate u && s.head?.any isLowSurrogate)
    rw [quoteBody, List.length_append, List.length_cons]
    split
    · rw [List.length_singleton]
      omega
    · omega

theorem parseString_quoteBody (s rest : Text) :
    parseString (quoteBody false s ++ rest) = some (s, rest) := by
  refine parseUnits_quoteBody s rest false _ ?_
  have := length_le_quoteBody false s
  rw [List.length_append]
  omega

/-! ## Numbers -/

def NumberEnd (rest : Text) : Prop := Json.NumberEnd (rest.map character)

theorem numberEnd_cons (rest : Text)
    (h : (character u).isDigit = false ∧ character u ≠ '.' ∧ character u ≠ 'e' ∧
      character u ≠ 'E') : NumberEnd (u :: rest) := by
  intro c hc
  rw [List.map_cons, List.head?_cons, Option.mem_some_iff] at hc
  rwa [← hc]

theorem decimalText_head (d : Json.Decimal) :
    ∃ u rest, decimalText d = u :: rest ∧ ((character u).isDigit = true ∨ u = 45) ∧
      (u = 45 → d.negative = true) := by
  obtain ⟨c, cs, hd, hc⟩ := d.text_starts
  have hcode : character (ascii c) = c :=
    character_ascii (decimal_ascii d c (hd ▸ List.mem_cons_self))
  refine ⟨ascii c, cs.map ascii, by rw [decimalText, hd, List.map_cons], ?_, ?_⟩
  · rcases hc with hc | rfl
    · exact Or.inl (by rw [hcode]; exact hc)
    · exact Or.inr rfl
  · intro hu
    have hminus : c = '-' := by rw [← hcode, hu]; rfl
    cases hneg : d.negative with
    | true => rfl
    | false =>
      -- a number that is not negative starts with a digit
      obtain ⟨c', cs', hd', hdigit⟩ := d.parts.text_head d.parts_value.1 []
      rw [Json.Decimal.text, hneg, if_neg Bool.false_ne_true, List.nil_append] at hd
      rw [List.append_nil] at hd'
      rw [hd, List.cons.injEq] at hd'
      rw [← hd'.1, hminus] at hdigit
      exact absurd hdigit (by decide)

theorem ofRounded_double {x : Double} {negative : Bool} (h : negative = true → x ≠ .zero)
    {n : Json.Number} (hn : n.rounded = n) (hx : n = .finite x.decimal) :
    Number.ofRounded negative n hn = .finite x := by
  subst hx
  rw [Number.ofRounded, if_neg]
  rw [Bool.and_eq_true, decide_eq_true_eq]
  rintro ⟨hneg, hzero⟩
  exact h hneg (Double.ext hzero)

theorem read_double {x : Double} {negative : Bool} (h : negative = true → x ≠ .zero) :
    Number.read negative x.decimal = .finite x :=
  ofRounded_double h _ x.isDouble

theorem parseNumber_text (x : Double) {rest : Text} (hr : NumberEnd rest) :
    parseNumber (decimalText x.decimal ++ rest) = some (.finite x, rest) := by
  obtain ⟨u, tail, hd, -, hminus⟩ := decimalText_head x.decimal
  have hread : Number.read ((decimalText x.decimal ++ rest).head? = some 45) x.decimal
      = .finite x := by
    refine read_double fun hneg hzero => ?_
    rw [hd, List.cons_append, List.head?_cons, decide_eq_true_eq, Option.some.injEq] at hneg
    have hnegative := hminus hneg
    rw [hzero] at hnegative
    exact absurd hnegative (by decide)
  have hdrop : (decimalText x.decimal ++ rest).drop
      ((decimalText x.decimal ++ rest).length - (rest.map character).length) = rest := by
    rw [List.length_map, List.length_append, Nat.add_sub_cancel, List.drop_left]
  rw [parseNumber, map_character_decimalText, Json.parseNumber_text x.decimal hr]
  simp only [Option.bind_eq_bind, Option.bind_some, hread, hdrop]

/-! ## First units

The parser dispatches on the first unit after whitespace. -/

/-- The text starts with a unit that is neither whitespace nor a closing bracket. -/
def Starts (text : Text) : Prop :=
  ∃ u rest, text = u :: rest ∧ isSpace u = false ∧ u ≠ 93 ∧ u ≠ 125

theorem Starts.skipSpace {text : Text} (h : Starts text) (rest : Text) :
    skipSpace (text ++ rest) = text ++ rest := by
  obtain ⟨u, text, rfl, hu, -, -⟩ := h
  simp [Ecma.skipSpace, hu]

theorem skipSpace_cons (h : isSpace u = false) (rest : Text) :
    skipSpace (u :: rest) = u :: rest := by
  simp [skipSpace, h]

theorem starts_cons {text : Text} (h : isSpace u = false ∧ u ≠ 93 ∧ u ≠ 125) :
    Starts (u :: text) := ⟨u, text, rfl, h⟩

theorem Starts.append {text : Text} (h : Starts text) (more : Text) : Starts (text ++ more) := by
  obtain ⟨u, rest, rfl, hu⟩ := h
  exact ⟨u, rest ++ more, rfl, hu⟩

theorem digit_ne (h : (character u).isDigit = true ∨ u = 45) {v : UInt16}
    (hv : (character v).isDigit = false ∧ v ≠ 45) : u ≠ v := by
  rintro rfl
  rcases h with h | h
  · rw [hv.1] at h
    exact Bool.false_ne_true h
  · exact hv.2 h

theorem decimalText_starts (d : Json.Decimal) : Starts (decimalText d) := by
  obtain ⟨u, rest, hd, hu, -⟩ := decimalText_head d
  have hspace : isSpace u = false := by
    simp only [isSpace, Bool.or_eq_false_iff, beq_eq_false_iff_ne]
    exact ⟨⟨⟨digit_ne hu (by decide), digit_ne hu (by decide)⟩, digit_ne hu (by decide)⟩,
      digit_ne hu (by decide)⟩
  exact ⟨u, rest, hd, hspace, digit_ne hu (by decide), digit_ne hu (by decide)⟩

theorem Value.text_starts (v : Value) : Starts v.text := by
  cases v with
  | undefined => exact starts_cons (by decide)
  | null => exact starts_cons (by decide)
  | bool b => cases b <;> exact starts_cons (by decide)
  | num n =>
    cases n with
    | finite x => exact decimalText_starts x.decimal
    | negativeZero => exact starts_cons (by decide)
    | nan => exact starts_cons (by decide)
    | infinity negative => cases negative <;> exact starts_cons (by decide)
  | str s => exact starts_cons (by decide)
  | arr items => rw [Value.text]; exact starts_cons (by decide)
  | obj fields => rw [Value.text]; exact starts_cons (by decide)

theorem Value.text_length_pos (v : Value) : 0 < v.text.length := by
  obtain ⟨u, rest, h, -⟩ := v.text_starts
  rw [h, List.length_cons]
  exact Nat.succ_pos _

theorem starts_joinComma {part : Text} (h : Starts part) (rest : List Text) :
    Starts (joinComma (part :: rest)) := by
  cases rest with
  | nil => exact h
  | cons next rest => exact h.append _

end Ecma
