import ThreeXhaust.Lib.Ecma.Parse

/-!
# `JSON.parse` reads JSON back

The text of a value does not tell the sign of a zero. What is read back from it is the value with
all its zeros positive, so it says the same.

* **`data_unsigned`** — what is read back says what was written.
-/

namespace Ecma

open Utf16

mutual

@[grind =] def Value.unsigned : Value → Value
  | .undefined => .undefined
  | .null => .null
  | .bool b => .bool b
  | .num n => .num n.unsigned
  | .str s => .str s
  | .arr items => .arr (Value.unsignedItems items)
  | .obj fields => .obj (Value.unsignedFields fields)

@[grind =] def Value.unsignedItems : List Value → List Value
  | [] => []
  | v :: rest => v.unsigned :: Value.unsignedItems rest

@[grind =] def Value.unsignedFields : List (Text × Value) → List (Text × Value)
  | [] => []
  | (k, v) :: rest => (k, v.unsigned) :: Value.unsignedFields rest

end

theorem Number.unsigned_unsigned (n : Number) : n.unsigned.unsigned = n.unsigned := by
  cases n <;> rfl

theorem Value.keys_unsignedFields (fields : List (Text × Value)) :
    (Value.unsignedFields fields).map Prod.fst = fields.map Prod.fst := by
  induction fields with
  | nil => rfl
  | cons f rest ih => rw [Value.unsignedFields, List.map_cons, ih, List.map_cons]

mutual

theorem Value.data_unsigned : ∀ v : Value, v.unsigned.data = v.data
  | .undefined => rfl
  | .null => rfl
  | .bool _ => rfl
  | .num n => by rw [Value.unsigned, Value.data, Value.data, n.unsigned_unsigned]
  | .str _ => rfl
  | .arr items => by
    rw [Value.unsigned, Value.data, Value.data, Value.dataItems_unsigned items]
  | .obj fields => by
    rw [Value.unsigned, Value.data, Value.data, Value.dataFields_unsigned fields]

theorem Value.dataItems_unsigned : ∀ items : List Value,
    Value.dataItems (Value.unsignedItems items) = Value.dataItems items
  | [] => rfl
  | v :: rest => by
    rw [Value.unsignedItems, Value.dataItems, Value.dataItems, Value.data_unsigned v,
      Value.dataItems_unsigned rest]

theorem Value.dataFields_unsigned : ∀ fields : List (Text × Value),
    Value.dataFields (Value.unsignedFields fields) = Value.dataFields fields
  | [] => rfl
  | (k, v) :: rest => by
    funext key
    rw [Value.unsignedFields, Value.dataFields_cons, Value.dataFields_cons,
      Value.data_unsigned v, Value.dataFields_unsigned rest]

end

/-! ## Objects without a repeated key -/

theorem setField_of_not_mem {fields : List (Text × Value)} {k : Text} (v : Value)
    (h : k ∉ fields.map Prod.fst) : setField fields k v = fields ++ [(k, v)] := by
  rw [setField, if_neg h]

theorem foldl_setField {fields done : List (Text × Value)}
    (h : ((done ++ fields).map Prod.fst).Nodup) :
    fields.foldl (fun fs f => setField fs f.1 f.2) done = done ++ fields := by
  induction fields generalizing done with
  | nil => simp
  | cons f rest ih =>
    have hf : f.1 ∉ done.map Prod.fst := by
      simp only [List.map_append, List.map_cons, List.nodup_append] at h
      intro hmem
      exact h.2.2 _ hmem _ (by simp) rfl
    rw [List.foldl_cons, setField_of_not_mem _ hf, ih (by simpa using h)]
    simp

/-! ## The round trip -/

theorem parseWord_append (word : Text) (v : Value) (rest : Text) :
    parseWord word v (word ++ rest) = some (v, rest) := by
  simp [parseWord]

theorem isFinite_cases {n : Number} (h : n.isFinite = true) :
    ∃ x, n.unsigned = .finite x ∧ n.text = decimalText x.decimal := by
  cases n with
  | finite x => exact ⟨x, rfl, rfl⟩
  | negativeZero => exact ⟨.zero, rfl, by decide⟩
  | nan => cases h
  | infinity _ => cases h

mutual

/-- **The parser reads a value's text back.** -/
theorem parseValue_text (v : Value) (hv : v.IsJson) (fuel : Nat) (rest : Text)
    (hf : 2 * v.text.length ≤ fuel) (hr : NumberEnd rest) :
    parseValue fuel (v.text ++ rest) = some (v.unsigned, rest) := by
  have hpos := v.text_length_pos
  obtain ⟨fuel, rfl⟩ : ∃ f, fuel = f + 1 := ⟨fuel - 1, by omega⟩
  rw [parseValue, v.text_starts.skipSpace]
  cases v with
  | undefined => exact absurd hv (by simp [Value.IsJson])
  | null => exact parseWord_append (units "ull") .null rest
  | bool b =>
    cases b with
    | true => exact parseWord_append (units "rue") (.bool true) rest
    | false => exact parseWord_append (units "alse") (.bool false) rest
  | num n =>
    obtain ⟨x, hx, htext⟩ := isFinite_cases (by simpa [Value.IsJson] using hv)
    obtain ⟨u, tail, hd, hu, -⟩ := decimalText_head x.decimal
    have hread := parseNumber_text x hr
    rw [hd, List.cons_append] at hread
    simp only [Value.text, htext, hd, List.cons_append]
    rw [if_neg (digit_ne hu (by decide)), if_neg (digit_ne hu (by decide)),
      if_neg (digit_ne hu (by decide)), if_neg (digit_ne hu (by decide)),
      if_neg (digit_ne hu (by decide)), if_neg (digit_ne hu (by decide)), hread,
      Value.unsigned, hx]
    rfl
  | str s =>
    simp only [Value.text, quote, List.cons_append]
    rw [if_neg (by decide), if_neg (by decide), if_pos trivial, parseString_quoteBody]
    rfl
  | arr items =>
    simp only [Value.text, List.cons_append, List.append_assoc, List.nil_append,
      List.length_cons, List.length_append] at hf ⊢
    rw [if_neg (by decide), if_pos trivial]
    cases items with
    | nil => simp [Value.textItems, joinComma, skipSpace, isSpace, Value.unsigned,
        Value.unsignedItems]
    | cons w ws =>
      have hitems := parseItems_text (w :: ws) (by simp) (by simpa [Value.IsJson] using hv)
        fuel rest (by simp at hf; omega)
      have hstart : Starts (joinComma (Value.textItems (w :: ws))) :=
        starts_joinComma w.text_starts _
      rw [hstart.skipSpace]
      obtain ⟨u, us, hcs, -, hu, -⟩ := hstart
      rw [if_neg, hitems]
      · rfl
      · rw [hcs, List.cons_append, List.head?_cons, Option.some.injEq]
        exact hu
  | obj fields =>
    simp only [Value.text, List.cons_append, List.append_assoc, List.nil_append,
      List.length_cons, List.length_append] at hf ⊢
    rw [if_pos trivial]
    cases fields with
    | nil => simp [Value.textFields, joinComma, skipSpace, isSpace, Value.unsigned,
        Value.unsignedFields]
    | cons f fs =>
      obtain ⟨hnd, hall⟩ : ((f :: fs).map Prod.fst).Nodup ∧ Value.IsJsonFields (f :: fs) := by
        simpa only [Value.IsJson] using hv
      have hfields := parseFields_text (f :: fs) (by simp) hall fuel rest (by simp at hf; omega)
      obtain ⟨k, w⟩ := f
      have hstart : Starts (joinComma (Value.textFields ((k, w) :: fs))) :=
        starts_joinComma (starts_cons (by decide)) _
      rw [hstart.skipSpace]
      obtain ⟨u, us, hcs, -, -, hu⟩ := hstart
      rw [if_neg, hfields]
      · have hset := @foldl_setField (Value.unsignedFields ((k, w) :: fs)) []
          (by rw [List.nil_append, Value.keys_unsignedFields]; exact hnd)
        simp only [Option.bind_eq_bind, Option.bind_some, hset, List.nil_append, Value.unsigned]
      · rw [hcs, List.cons_append, List.head?_cons, Option.some.injEq]
        exact hu

theorem parseItems_text (items : List Value) (hne : items ≠ []) (hv : Value.IsJsonItems items)
    (fuel : Nat) (rest : Text) (hf : 2 * (joinComma (Value.textItems items)).length < fuel) :
    parseItems fuel (joinComma (Value.textItems items) ++ 93 :: rest)
      = some (Value.unsignedItems items, rest) := by
  obtain ⟨fuel, rfl⟩ : ∃ f, fuel = f + 1 := ⟨fuel - 1, by omega⟩
  rw [parseItems]
  match items, hne with
  | [v], _ =>
    simp only [Value.textItems, joinComma] at hf ⊢
    have hread := parseValue_text v hv.1 fuel (93 :: rest) (by omega)
      (numberEnd_cons _ (by decide))
    rw [hread]
    simp [skipSpace, isSpace, Value.unsignedItems]
  | v :: w :: ws, _ =>
    simp only [Value.textItems, joinComma, List.length_append, List.length_cons] at hf ⊢
    have hread := parseValue_text v hv.1 fuel
      (44 :: (joinComma (w.text :: Value.textItems ws) ++ 93 :: rest)) (by omega)
      (numberEnd_cons _ (by decide))
    have htail := parseItems_text (w :: ws) (by simp) hv.2 fuel rest
      (by simp only [Value.textItems]; omega)
    rw [Value.textItems] at htail
    rw [List.append_assoc, List.cons_append, hread]
    simp [skipSpace, isSpace, htail, Value.unsignedItems]

theorem parseFields_text (fields : List (Text × Value)) (hne : fields ≠ [])
    (hv : Value.IsJsonFields fields) (fuel : Nat) (rest : Text)
    (hf : 2 * (joinComma (Value.textFields fields)).length < fuel) :
    parseFields fuel (joinComma (Value.textFields fields) ++ 125 :: rest)
      = some (Value.unsignedFields fields, rest) := by
  obtain ⟨fuel, rfl⟩ : ∃ f, fuel = f + 1 := ⟨fuel - 1, by omega⟩
  rw [parseFields]
  match fields, hne with
  | [(k, v)], _ =>
    simp only [Value.textFields, joinComma, quote, List.cons_append, List.append_assoc,
      List.length_cons, List.length_append] at hf ⊢
    have hread := parseValue_text v hv.1 fuel (125 :: rest) (by omega)
      (numberEnd_cons _ (by decide))
    rw [skipSpace_cons (by decide)]
    simp [parseString_quoteBody, skipSpace_cons (u := 58) (by decide), hread,
      skipSpace_cons (u := 125) (by decide), Value.unsignedFields]
  | (k, v) :: (l, w) :: fs, _ =>
    simp only [Value.textFields, joinComma, quote, List.cons_append, List.append_assoc,
      List.length_cons, List.length_append] at hf ⊢
    have hread := parseValue_text v hv.1 fuel
      (44 :: (joinComma (Value.textFields ((l, w) :: fs)) ++ 125 :: rest)) (by omega)
      (numberEnd_cons _ (by decide))
    have htail := parseFields_text ((l, w) :: fs) (by simp) hv.2 fuel rest
      (by simp only [Value.textFields, quote, List.cons_append]; omega)
    simp only [Value.textFields, quote, List.cons_append] at hread htail
    rw [skipSpace_cons (by decide)]
    simp [parseString_quoteBody, skipSpace_cons (u := 58) (by decide), hread,
      skipSpace_cons (u := 44) (by decide), htail, Value.unsignedFields]

end

/-- **`JSON.parse` reads JSON back**, but for the sign of its zeros. -/
theorem parse_text {v : Value} (hv : v.IsJson) : parse v.text = some v.unsigned := by
  have h := parseValue_text v hv (2 * v.text.length) [] le_rfl (by intro c hc; simp at hc)
  rw [List.append_nil] at h
  simp [parse, h, skipSpace]

end Ecma
