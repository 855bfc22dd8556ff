import ThreeXhaust.Lib.Json.RoundTrip
import ThreeXhaust.Lib.Bytes

/-!
# JSON lines

`JSON.stringify` writes no line break (`newline_not_mem_text`), so a value and a line break behind
it are one line of a file, and what is read from the line is the value.
-/

namespace Json

theorem newline_not_mem_escapeChar (c : Char) : '\n' ∉ escapeChar c := by
  -- the hexadecimal digits of an escape are the only characters that are computed
  have hhex : ∀ n < 16, '\n' ≠ hexDigit n := by decide
  by_cases hcontrol : c.toNat < 32
  · have hhigh := hhex (c.toNat / 16) (by omega)
    have hlow := hhex (c.toNat % 16) (by omega)
    unfold escapeChar
    split_ifs
    all_goals simp_all
  · have hbreak : c ≠ '\n' := by
      rintro rfl
      exact hcontrol (by decide)
    unfold escapeChar
    split_ifs
    all_goals simp_all [eq_comm]

theorem newline_not_mem_quote (s : String) : '\n' ∉ quote s := by
  intro h
  rw [quote, quoteBody, List.mem_cons, List.mem_append, List.mem_flatMap] at h
  obtain h | ⟨c, -, hc⟩ | h := h
  · exact absurd h (by decide)
  · exact newline_not_mem_escapeChar c hc
  · exact absurd h (by decide)

theorem Decimal.text_chars (d : Decimal) :
    ∀ c ∈ d.text, c.isDigit = true ∨ c ∈ ['-', '.', 'e', '+'] := by
  obtain ⟨hwf, -⟩ := d.parts_value
  intro c hc
  simp only [Decimal.text, NumberParts.text, List.mem_append] at hc
  rcases hc with hc | (hc | hc) | hc
  · -- the sign
    split at hc
    · rw [List.mem_singleton.mp hc]
      decide
    · cases hc
  · exact .inl (hwf.int_digits c hc)
  · -- the fraction
    split at hc
    · cases hc
    · rcases List.mem_cons.mp hc with rfl | hc
      · decide
      · exact .inl (hwf.frac_digits c hc)
  · -- the exponent
    split at hc
    · cases hc
    · next e _ =>
      simp only [exponentText, List.mem_cons] at hc
      rcases hc with rfl | hc | hc
      · decide
      · rw [hc]
        split <;> decide
      · exact .inl (isDigit_toDigits _ c hc)

theorem newline_not_mem_number (n : Number) : '\n' ∉ n.text := by
  cases n with
  | nan => decide
  | infinity negative => cases negative <;> decide
  | finite d =>
    intro h
    exact absurd (d.text_chars '\n' h) (by decide)

mutual

theorem newline_not_mem_text : ∀ v : Value, '\n' ∉ v.text
  | .undefined => by decide
  | .null => by decide
  | .bool true => by decide
  | .bool false => by decide
  | .num n => newline_not_mem_number n
  | .str s => newline_not_mem_quote s
  | .arr items => by
    have hitems := newline_not_mem_textItems items
    simp only [Value.text, List.mem_cons, List.mem_append, List.not_mem_nil, or_false, not_or]
    exact ⟨by decide, hitems, by decide⟩
  | .obj fields => by
    have hfields := newline_not_mem_textFields fields
    simp only [Value.text, List.mem_cons, List.mem_append, List.not_mem_nil, or_false, not_or]
    exact ⟨by decide, hfields, by decide⟩

theorem newline_not_mem_textItems : ∀ items : List Value, '\n' ∉ Value.textItems items
  | [] => by simp [Value.textItems]
  | [v] => by
    rw [Value.textItems]
    exact newline_not_mem_text v
  | v :: w :: rest => by
    have hv := newline_not_mem_text v
    have hrest := newline_not_mem_textItems (w :: rest)
    simp only [Value.textItems, List.mem_append, List.mem_cons, not_or]
    exact ⟨hv, by decide, hrest⟩

theorem newline_not_mem_textFields :
    ∀ fields : List (String × Value), '\n' ∉ Value.textFields fields
  | [] => by simp [Value.textFields]
  | (k, v) :: rest => by
    have hv := newline_not_mem_text v
    have hrest := newline_not_mem_textFields rest
    rw [Value.textFields]
    split
    · exact hrest
    · have htail : '\n' ∉ commaBefore (Value.textFields rest) := by
        unfold commaBefore
        split
        · exact List.not_mem_nil
        · simp only [List.mem_cons, not_or]
          exact ⟨by decide, hrest⟩
      simp only [List.mem_append, List.mem_cons, not_or]
      exact ⟨newline_not_mem_quote k, by decide, hv, htail⟩

end

def Value.line (v : Value) : Bytes := utf8 v.stringify ++ [10]

theorem newline_not_mem_line (v : Value) : (10 : UInt8) ∉ utf8 v.stringify := by
  rw [Value.stringify, utf8_ofList]
  exact not_mem_utf8Chars (c := '\n') (by decide) (newline_not_mem_text v)

end Json
