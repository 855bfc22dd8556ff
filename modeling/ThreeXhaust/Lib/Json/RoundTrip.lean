import ThreeXhaust.Lib.Json.Value

/-!
# `JSON.parse` inverts `JSON.stringify`

`parseValue_text` is the core: on the text of a JSON value followed by anything that cannot
continue a number, with fuel twice the length of the text, the parser returns the value and
leaves the rest. The induction is on the value, with the item and field lists beside it.
`parse_stringify` is the whole-text form.
-/

namespace Json

/-! ## Strings -/

theorem hexValue_hexDigit : ∀ n, n < 16 → hexValue (hexDigit n) = some n := by
  decide

theorem parseHex4_byte (n : Nat) (h : n < 32) (rest : List Char) :
    parseHex4 ('0' :: '0' :: hexDigit (n / 16) :: hexDigit (n % 16) :: rest) = some (n, rest) := by
  have h0 : hexValue '0' = some 0 := by decide
  have h1 := hexValue_hexDigit (n / 16) (by omega)
  have h2 := hexValue_hexDigit (n % 16) (by omega)
  simp only [parseHex4, h0, h1, h2, Option.bind_eq_bind, Option.bind_some]
  rw [show 16 * (16 * (16 * 0 + 0) + n / 16) + n % 16 = n by omega]

attribute [local simp] parseChars parseEscape in
theorem parseChars_escapeChar (fuel : Nat) (c : Char) (rest : List Char) :
    parseChars (fuel + 1) (escapeChar c ++ rest) =
      (parseChars fuel rest).map fun p => (c :: p.1, p.2) := by
  have hbind : ∀ (c : Char) (o : Option (List Char × List Char)),
      (o >>= fun p => some (c :: p.1, p.2)) = o.map fun p => (c :: p.1, p.2) := by
    intro c o; cases o <;> rfl
  have hchar : ∀ n, c.toNat = n → Char.ofNat n = c := by
    rintro n rfl; exact Char.ofNat_toNat c
  unfold escapeChar
  split
  · next h => subst h; simp [hbind]
  split
  · next h => subst h; simp [hbind]
  split
  · next h =>
    obtain rfl : Char.ofNat 8 = c := hchar 8 h
    simp [hbind]
  split
  · next h =>
    obtain rfl : Char.ofNat 12 = c := hchar 12 h
    simp [hbind]
  split
  · next h => subst h; simp [hbind]
  split
  · next h => subst h; simp [hbind]
  split
  · next h => subst h; simp [hbind]
  split
  · -- a control character without a short escape
    next h =>
    have hlow : ¬ (0xD800 ≤ c.toNat ∧ c.toNat < 0xDC00) := by omega
    have hlow' : ¬ (0xDC00 ≤ c.toNat ∧ c.toNat < 0xE000) := by omega
    have hesc : parseEscape
        ('u' :: '0' :: '0' :: hexDigit (c.toNat / 16) :: hexDigit (c.toNat % 16) :: rest)
          = some (c, rest) := by
      simp [parseHex4_byte c.toNat h, hlow, hlow', hchar _ rfl]
    simp only [List.cons_append, List.nil_append, parseChars]
    rw [if_neg (by decide), if_pos trivial, hesc]
    exact hbind c _
  · next h1 h2 _ _ _ _ _ h3 => simp [h1, h2, h3, hbind]

theorem parseChars_quoteBody (cs rest : List Char) (fuel : Nat) (hf : cs.length < fuel) :
    parseChars fuel (quoteBody cs ++ rest) = some (cs, rest) := by
  induction cs generalizing fuel with
  | nil =>
    obtain ⟨fuel, rfl⟩ : ∃ f, fuel = f + 1 := ⟨fuel - 1, by simp at hf; omega⟩
    simp [quoteBody, parseChars]
  | cons c cs ih =>
    obtain ⟨fuel, rfl⟩ : ∃ f, fuel = f + 1 := ⟨fuel - 1, by simp at hf; omega⟩
    have hsplit : quoteBody (c :: cs) ++ rest = escapeChar c ++ (quoteBody cs ++ rest) := by
      simp [quoteBody]
    rw [hsplit, parseChars_escapeChar, ih fuel (by simpa using hf)]
    rfl

theorem escapeChar_length (c : Char) : 1 ≤ (escapeChar c).length := by
  unfold escapeChar
  repeat' split
  all_goals simp

theorem length_le_quoteBody (cs : List Char) : cs.length ≤ (quoteBody cs).length := by
  induction cs with
  | nil => simp
  | cons c cs ih =>
    have := escapeChar_length c
    simp only [quoteBody, List.flatMap_cons, List.length_append, List.length_cons] at ih ⊢
    omega

theorem parseString_quoteBody (s : String) (rest : List Char) :
    parseString (quoteBody s.toList ++ rest) = some (s, rest) := by
  have hfuel : s.toList.length < (quoteBody s.toList ++ rest).length + 1 := by
    have := length_le_quoteBody s.toList
    rw [List.length_append]
    omega
  simp only [parseString, parseChars_quoteBody _ _ _ hfuel, Option.bind_eq_bind,
    Option.bind_some, String.ofList_toList]

/-! ## First characters

The parser dispatches on the first character after whitespace, so what each text starts with
decides which branch reads it. -/

/-- The text starts with a character that is neither whitespace nor a closing bracket. -/
def Starts (cs : List Char) : Prop :=
  ∃ c rest, cs = c :: rest ∧ isSpace c = false ∧ c ≠ ']' ∧ c ≠ '}'

theorem Starts.skipSpace {cs : List Char} (h : Starts cs) (rest : List Char) :
    skipSpace (cs ++ rest) = cs ++ rest := by
  obtain ⟨c, cs, rfl, hc, -, -⟩ := h
  simp [Json.skipSpace, hc]

theorem skipSpace_cons {c : Char} (h : isSpace c = false) (rest : List Char) :
    skipSpace (c :: rest) = c :: rest := by
  simp [skipSpace, h]

theorem starts_cons {c : Char} {cs : List Char} (h : isSpace c = false ∧ c ≠ ']' ∧ c ≠ '}') :
    Starts (c :: cs) :=
  ⟨c, cs, rfl, h⟩

theorem Decimal.text_starts (d : Decimal) :
    ∃ c rest, d.text = c :: rest ∧ (c.isDigit = true ∨ c = '-') := by
  unfold Decimal.text
  cases d.negative with
  | true => exact ⟨'-', d.parts.text, rfl, .inr rfl⟩
  | false =>
    obtain ⟨c, cs, hcs, hc⟩ := d.parts.text_head d.parts_value.1 []
    exact ⟨c, cs, by simpa using hcs, .inl hc⟩

theorem digit_ne {c : Char} (h : c.isDigit = true ∨ c = '-') {x : Char}
    (hx : x.isDigit = false ∧ x ≠ '-') : c ≠ x := by
  rintro rfl
  rcases h with h | h
  · rw [hx.1] at h; exact absurd h (by decide)
  · exact hx.2 h

theorem Value.text_starts (v : Value) : Starts v.text := by
  cases v with
  | undefined => exact starts_cons (by decide)
  | null => exact starts_cons (by decide)
  | bool b => cases b <;> exact starts_cons (by decide)
  | num n =>
    cases n with
    | finite d =>
      obtain ⟨c, rest, hd, hc⟩ := d.text_starts
      have hsp : isSpace c = false := by
        simp only [isSpace, Bool.or_eq_false_iff, decide_eq_false_iff_not]
        exact ⟨⟨⟨digit_ne hc (by decide), digit_ne hc (by decide)⟩,
          digit_ne hc (by decide)⟩, digit_ne hc (by decide)⟩
      exact ⟨c, rest, hd, hsp, digit_ne hc (by decide), digit_ne hc (by decide)⟩
    | nan => exact starts_cons (by decide)
    | infinity _ => exact starts_cons (by decide)
  | str s => exact starts_cons (by decide)
  | arr items => rw [Value.text]; exact starts_cons (by decide)
  | obj fields => rw [Value.text]; exact starts_cons (by decide)

theorem Value.text_length_pos (v : Value) : 0 < v.text.length := by
  obtain ⟨c, rest, h, -⟩ := v.text_starts
  rw [h]
  simp

theorem Value.textItems_starts (v : Value) (rest : List Value) :
    Starts (Value.textItems (v :: rest)) := by
  cases rest with
  | nil => simpa [Value.textItems] using v.text_starts
  | cons w rest =>
    obtain ⟨c, cs, h, hc⟩ := v.text_starts
    rw [Value.textItems, h]
    exact ⟨c, _, rfl, hc⟩

theorem Value.textFields_cons {k : String} {v : Value} (hv : v.IsJson)
    (rest : List (String × Value)) :
    Value.textFields ((k, v) :: rest) =
      quote k ++ ':' :: (v.text ++ commaBefore (Value.textFields rest)) := by
  have hdef : v.isUndefined = false := by
    cases v with
    | undefined => exact absurd hv (by simp [Value.IsJson])
    | _ => rfl
  rw [Value.textFields, hdef]
  simp

theorem Value.textFields_eq_nil {fields : List (String × Value)}
    (h : Value.IsJsonFields fields) : Value.textFields fields = [] ↔ fields = [] := by
  cases fields with
  | nil => simp [Value.textFields]
  | cons f rest =>
    obtain ⟨k, v⟩ := f
    rw [Value.textFields_cons h.1]
    simp [quote]

/-! ## Objects without a repeated key -/

theorem setField_of_not_mem {fields : List (String × Value)} {k : String} (v : Value)
    (h : k ∉ fields.map Prod.fst) : setField fields k v = fields ++ [(k, v)] := by
  unfold setField
  rw [if_neg]
  simpa using h

theorem foldl_setField {fields done : List (String × Value)}
    (h : ((done ++ fields).map Prod.fst).Nodup) :
    fields.foldl (fun fs f => setField fs f.1 f.2) done = done ++ fields := by
  induction fields generalizing done with
  | nil => simp
  | cons f rest ih =>
    have hf : f.1 ∉ done.map Prod.fst := by
      simp only [List.map_append, List.map_cons, List.nodup_append] at h
      intro hmem
      exact h.2.2 _ hmem _ (by simp) rfl
    rw [List.foldl_cons, setField_of_not_mem _ hf, ih (by simpa using h)]
    simp

/-! ## The round trip -/

theorem numberEnd_cons {c : Char} (rest : List Char)
    (h : c.isDigit = false ∧ c ≠ '.' ∧ c ≠ 'e' ∧ c ≠ 'E') : NumberEnd (c :: rest) := by
  intro x hx
  simp only [List.head?_cons, Option.mem_def, Option.some.injEq] at hx
  subst hx
  exact h

theorem parseWord_append (word : List Char) (v : Value) (rest : List Char) :
    parseWord word v (word ++ rest) = some (v, rest) := by
  simp [parseWord]

mutual

/-- **The parser reads a value's text back.** -/
theorem parseValue_text (v : Value) (hv : v.IsJson) (fuel : Nat) (rest : List Char)
    (hf : 2 * v.text.length ≤ fuel) (hr : NumberEnd rest) :
    parseValue fuel (v.text ++ rest) = some (v, rest) := by
  have hpos := v.text_length_pos
  obtain ⟨fuel, rfl⟩ : ∃ f, fuel = f + 1 := ⟨fuel - 1, by omega⟩
  rw [parseValue, v.text_starts.skipSpace]
  cases v with
  | undefined => exact absurd hv (by simp [Value.IsJson])
  | null => exact parseWord_append "ull".toList .null rest
  | bool b =>
    cases b with
    | true => exact parseWord_append "rue".toList (.bool true) rest
    | false => exact parseWord_append "alse".toList (.bool false) rest
  | num n =>
    obtain ⟨d, rfl⟩ : ∃ d, n = .finite d := by simpa [Value.IsJson] using hv
    obtain ⟨c, cs, hd, hc⟩ := d.text_starts
    have hread := parseNumber_text d hr
    rw [hd, List.cons_append] at hread
    simp only [Value.text, Number.text, hd, List.cons_append]
    rw [if_neg (digit_ne hc (by decide)), if_neg (digit_ne hc (by decide)),
      if_neg (digit_ne hc (by decide)), if_neg (digit_ne hc (by decide)),
      if_neg (digit_ne hc (by decide)), if_neg (digit_ne hc (by decide)), hread]
    rfl
  | str s =>
    simp only [Value.text, quote, List.cons_append]
    rw [if_neg (by decide), if_neg (by decide), if_pos trivial, parseString_quoteBody]
    rfl
  | arr items =>
    simp only [Value.text, List.cons_append, List.append_assoc, List.nil_append,
      List.length_cons, List.length_append] at hf ⊢
    rw [if_neg (by decide), if_pos trivial]
    cases items with
    | nil => simp [Value.textItems, skipSpace, isSpace]
    | cons w ws =>
      have hstart := Value.textItems_starts w ws
      have hitems := parseItems_text (w :: ws) (by simp) (by simpa [Value.IsJson] using hv)
        fuel rest (by simp at hf; omega)
      rw [hstart.skipSpace]
      obtain ⟨c, cs, hcs, -, hc, -⟩ := hstart
      rw [hcs] at hitems ⊢
      simp only [List.cons_append] at hitems ⊢
      split
      · next heq => exact absurd (List.cons.inj heq).1 hc
      · rw [hitems]; rfl
  | obj fields =>
    simp only [Value.text, List.cons_append, List.append_assoc, List.nil_append,
      List.length_cons, List.length_append] at hf ⊢
    rw [if_pos trivial]
    cases fields with
    | nil => simp [Value.textFields, skipSpace, isSpace]
    | cons f fs =>
      obtain ⟨hnd, hall⟩ : ((f :: fs).map Prod.fst).Nodup ∧ Value.IsJsonFields (f :: fs) := by
        simpa only [Value.IsJson] using hv
      have hfields := parseFields_text (f :: fs) (by simp) hall fuel rest (by simp at hf; omega)
      obtain ⟨k, w⟩ := f
      have hhead : ∃ cs, Value.textFields ((k, w) :: fs) = '"' :: cs := by
        rw [Value.textFields_cons hall.1, quote]
        exact ⟨_, rfl⟩
      obtain ⟨cs, hcs⟩ := hhead
      rw [hcs] at hfields ⊢
      simp only [List.cons_append] at hfields ⊢
      rw [skipSpace_cons (by decide)]
      split
      · next heq => exact absurd (List.cons.inj heq).1 (by decide)
      · rw [hfields]
        have hset := @foldl_setField ((k, w) :: fs) [] (by simpa using hnd)
        simpa using hset

theorem parseItems_text (items : List Value) (hne : items ≠ []) (hv : Value.IsJsonItems items)
    (fuel : Nat) (rest : List Char) (hf : 2 * (Value.textItems items).length < fuel) :
    parseItems fuel (Value.textItems items ++ ']' :: rest) = some (items, rest) := by
  obtain ⟨fuel, rfl⟩ : ∃ f, fuel = f + 1 := ⟨fuel - 1, by omega⟩
  rw [parseItems]
  match items, hne with
  | [v], _ =>
    have hread := parseValue_text v hv.1 fuel (']' :: rest)
      (by simp [Value.textItems] at hf; omega) (numberEnd_cons _ (by decide))
    rw [Value.textItems, hread]
    simp [skipSpace, isSpace]
  | v :: w :: ws, _ =>
    simp only [Value.textItems, List.length_append, List.length_cons] at hf
    have hread := parseValue_text v hv.1 fuel
      (',' :: (Value.textItems (w :: ws) ++ ']' :: rest)) (by omega)
      (numberEnd_cons _ (by decide))
    have htail := parseItems_text (w :: ws) (by simp) hv.2 fuel rest (by omega)
    rw [Value.textItems, List.append_assoc, List.cons_append, hread]
    simp [skipSpace, isSpace, htail]

theorem parseFields_text (fields : List (String × Value)) (hne : fields ≠ [])
    (hv : Value.IsJsonFields fields) (fuel : Nat) (rest : List Char)
    (hf : 2 * (Value.textFields fields).length < fuel) :
    parseFields fuel (Value.textFields fields ++ '}' :: rest) = some (fields, rest) := by
  obtain ⟨fuel, rfl⟩ : ∃ f, fuel = f + 1 := ⟨fuel - 1, by omega⟩
  rw [parseFields]
  match fields, hne with
  | (k, v) :: fs, _ =>
    rw [Value.textFields_cons hv.1] at hf ⊢
    simp only [quote, List.cons_append, List.append_assoc, List.length_cons,
      List.length_append] at hf ⊢
    rw [skipSpace_cons (by decide)]
    simp only [parseString_quoteBody, Option.bind_eq_bind, Option.bind_some]
    rw [skipSpace_cons (by decide)]
    simp only
    by_cases hfs : fs = []
    · -- the last field
      subst hfs
      have hread := parseValue_text v hv.1 fuel ('}' :: rest) (by omega)
        (numberEnd_cons _ (by decide))
      simp [Value.textFields, commaBefore, hread, skipSpace, isSpace]
    · have hnil : Value.textFields fs ≠ [] := by rwa [Ne, Value.textFields_eq_nil hv.2]
      rw [commaBefore, if_neg hnil] at hf ⊢
      simp only [List.length_cons] at hf
      have hread := parseValue_text v hv.1 fuel
        (',' :: (Value.textFields fs ++ '}' :: rest)) (by omega) (numberEnd_cons _ (by decide))
      have htail := parseFields_text fs hfs hv.2 fuel rest (by omega)
      rw [List.cons_append, hread]
      simp [skipSpace, isSpace, htail]

end

/-- **`JSON.parse` inverts `JSON.stringify`** on JSON data. -/
theorem parse_stringify (v : Value) (hv : v.IsJson) : parse v.stringify = some v := by
  have h := parseValue_text v hv (2 * v.text.length) [] le_rfl (by intro c hc; simp at hc)
  rw [List.append_nil] at h
  simp [parse, Value.stringify, h, skipSpace]

end Json
