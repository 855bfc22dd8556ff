import ThreeXhaust.Lib.Json.Number

/-!
# JavaScript strings

A JavaScript string is a sequence of UTF-16 code units, in which half a surrogate pair may stand
alone: cutting a string at an index may split a pair. `quote` is `JSON.stringify` of a string: a
pair is written as it is, a surrogate that stands alone as its escape.

* **`unquote_quoteBody`** — what was quoted is read back, so no two strings are quoted alike.
-/

namespace Utf16

/-- The code units of a string. -/
abbrev Text := List UInt16

instance : LawfulBEq Text := inferInstance

def units (s : String) : Text :=
  s.toList.flatMap fun c =>
    if c.toNat < 65536 then [UInt16.ofNat c.toNat]
    else
      [UInt16.ofNat (55296 + (c.toNat - 65536) / 1024),
        UInt16.ofNat (56320 + (c.toNat - 65536) % 1024)]

def isHighSurrogate (u : UInt16) : Bool := 0xD800 ≤ u && u ≤ 0xDBFF

def isLowSurrogate (u : UInt16) : Bool := 0xDC00 ≤ u && u ≤ 0xDFFF

/-! ## Well-formed strings -/

/-- `isWellFormed`: no surrogate stands alone. -/
@[grind =] def isWellFormed : Text → Bool
  | [] => true
  | [u] => !(isHighSurrogate u || isLowSurrogate u)
  | u :: v :: rest =>
    if isHighSurrogate u && isLowSurrogate v then isWellFormed rest
    else !(isHighSurrogate u || isLowSurrogate u) && isWellFormed (v :: rest)

/-- A code unit that is not part of a pair; a lone surrogate becomes U+FFFD. -/
def replaceLone (u : UInt16) : UInt16 := if isHighSurrogate u || isLowSurrogate u then 0xFFFD else u

/-- `toWellFormed`: lone surrogates become U+FFFD. -/
@[grind =] def toWellFormed : Text → Text
  | [] => []
  | [u] => [replaceLone u]
  | u :: v :: rest =>
    if isHighSurrogate u && isLowSurrogate v then u :: v :: toWellFormed rest
    else replaceLone u :: toWellFormed (v :: rest)

theorem replaceLone_plain (u : UInt16) :
    isHighSurrogate (replaceLone u) = false ∧ isLowSurrogate (replaceLone u) = false := by
  rw [replaceLone]
  split
  · exact ⟨by decide, by decide⟩
  · rename_i h
    simpa using h

theorem isWellFormed_cons {u : UInt16} (hhigh : isHighSurrogate u = false)
    (hlow : isLowSurrogate u = false) (rest : Text) :
    isWellFormed (u :: rest) = isWellFormed rest := by
  cases rest with
  | nil => simp [isWellFormed, hhigh, hlow]
  | cons v rest => simp [isWellFormed, hhigh, hlow]

theorem isWellFormed_toWellFormed (s : Text) : isWellFormed (toWellFormed s) = true := by
  fun_induction toWellFormed s with
  | case1 => rfl
  | case2 u =>
    have h := replaceLone_plain u
    rw [isWellFormed_cons h.1 h.2]
    rfl
  | case3 u v rest hpair ih =>
    rw [isWellFormed, if_pos hpair]
    exact ih
  | case4 u v rest hpair ih =>
    have h := replaceLone_plain u
    rw [isWellFormed_cons h.1 h.2]
    exact ih

/-! ## Quoting -/

def hexUnit (n : Nat) : UInt16 := if n < 10 then UInt16.ofNat (48 + n) else UInt16.ofNat (87 + n)

/-- `\uXXXX`. -/
def unicodeEscape (u : UInt16) : Text :=
  [92, 117, hexUnit (u.toNat / 4096), hexUnit (u.toNat / 256 % 16), hexUnit (u.toNat / 16 % 16),
    hexUnit (u.toNat % 16)]

def escapeUnit (u : UInt16) : Text :=
  if u = 34 then [92, 34]
  else if u = 92 then [92, 92]
  else if u = 8 then [92, 98]
  else if u = 12 then [92, 102]
  else if u = 10 then [92, 110]
  else if u = 13 then [92, 114]
  else if u = 9 then [92, 116]
  else if u < 32 || isHighSurrogate u || isLowSurrogate u then unicodeEscape u
  else [u]

/-- The body of a quoted string, with its closing quote. `paired` tells that the unit before was
the first half of a pair. -/
@[grind =] def quoteBody : Bool → Text → Text
  | _, [] => [34]
  | paired, u :: rest =>
    let opens := isHighSurrogate u && rest.head?.any isLowSurrogate
    (if (paired && isLowSurrogate u) || opens then [u] else escapeUnit u) ++ quoteBody opens rest

def quote (s : Text) : Text := 34 :: quoteBody false s

/-! ## No two strings are quoted alike -/

def hexNat (u : UInt16) : Nat := if u < 58 then u.toNat - 48 else u.toNat - 87

def readEscape (u : UInt16) : UInt16 :=
  if u = 98 then 8 else if u = 102 then 12 else if u = 110 then 10 else if u = 114 then 13
  else if u = 116 then 9 else u

def readUnit : Text → Option (UInt16 × Text)
  | [] => none
  | u :: rest =>
    if u = 34 then none
    else if u = 92 then
      match rest with
      | [] => none
      | v :: rest =>
        if v = 117 then
          match rest with
          | a :: b :: c :: d :: rest =>
            some (UInt16.ofNat (4096 * hexNat a + 256 * hexNat b + 16 * hexNat c + hexNat d), rest)
          | _ => none
        else some (readEscape v, rest)
    else some (u, rest)

theorem hexNat_hexUnit : ∀ n, n < 16 → hexNat (hexUnit n) = n := by
  decide

theorem readUnit_unicodeEscape (u : UInt16) (rest : Text) :
    readUnit (unicodeEscape u ++ rest) = some (u, rest) := by
  have hu := u.toNat_lt
  have h1 := hexNat_hexUnit (u.toNat / 4096) (by omega)
  have h2 := hexNat_hexUnit (u.toNat / 256 % 16) (by omega)
  have h3 := hexNat_hexUnit (u.toNat / 16 % 16) (by omega)
  have h4 := hexNat_hexUnit (u.toNat % 16) (by omega)
  have hsum : 4096 * (u.toNat / 4096) + 256 * (u.toNat / 256 % 16) + 16 * (u.toNat / 16 % 16)
      + u.toNat % 16 = u.toNat := by
    omega
  simp [unicodeEscape, readUnit, h1, h2, h3, h4, hsum]

theorem readUnit_plain {u : UInt16} (hquote : u ≠ 34) (hslash : u ≠ 92) (rest : Text) :
    readUnit (u :: rest) = some (u, rest) := by
  simp [readUnit, hquote, hslash]

attribute [local simp] readUnit readEscape in
theorem readUnit_escapeUnit (u : UInt16) (rest : Text) :
    readUnit (escapeUnit u ++ rest) = some (u, rest) := by
  unfold escapeUnit
  split
  · next h => simp [h]
  split
  · next h => simp [h]
  split
  · next h => simp [h]
  split
  · next h => simp [h]
  split
  · next h => simp [h]
  split
  · next h => simp [h]
  split
  · next h => simp [h]
  split
  · exact readUnit_unicodeEscape u rest
  · next hquote hslash _ _ _ _ _ _ => exact readUnit_plain hquote hslash rest

theorem surrogate_plain {u : UInt16} (h : 0xD800 ≤ u) : u ≠ 34 ∧ u ≠ 92 := by
  constructor
  · rintro rfl
    exact absurd h (by decide)
  · rintro rfl
    exact absurd h (by decide)

theorem readUnit_quoteBody (paired : Bool) (u : UInt16) (s rest : Text) :
    ∃ paired', readUnit (quoteBody paired (u :: s) ++ rest)
      = some (u, quoteBody paired' s ++ rest) := by
  refine ⟨isHighSurrogate u && s.head?.any isLowSurrogate, ?_⟩
  rw [quoteBody, List.append_assoc]
  split
  · next hpair =>
    -- both halves of a pair are above the quote and the backslash
    have hsurrogate : 0xD800 ≤ u := by
      simp only [isHighSurrogate, isLowSurrogate, Bool.or_eq_true, Bool.and_eq_true,
        decide_eq_true_eq] at hpair
      rcases hpair with ⟨-, hlow, -⟩ | ⟨⟨hhigh, -⟩, -⟩
      · exact UInt16.le_trans (by decide) hlow
      · exact hhigh
    obtain ⟨hquote, hslash⟩ := surrogate_plain hsurrogate
    exact readUnit_plain hquote hslash _
  · exact readUnit_escapeUnit u _

/-- **No two strings are quoted alike**, whatever follows them. -/
theorem quoteBody_append_inj {paired paired' : Bool} {s s' rest rest' : Text}
    (h : quoteBody paired s ++ rest = quoteBody paired' s' ++ rest') : s = s' ∧ rest = rest' := by
  induction s generalizing s' paired paired' with
  | nil =>
    cases s' with
    | nil => exact ⟨rfl, List.cons.inj h |>.2⟩
    | cons u' s' =>
      obtain ⟨_, hread⟩ := readUnit_quoteBody paired' u' s' rest'
      rw [← h] at hread
      simp [quoteBody, readUnit] at hread
  | cons u s ih =>
    obtain ⟨_, hread⟩ := readUnit_quoteBody paired u s rest
    cases s' with
    | nil =>
      rw [h] at hread
      simp [quoteBody, readUnit] at hread
    | cons u' s' =>
      obtain ⟨_, hread'⟩ := readUnit_quoteBody paired' u' s' rest'
      rw [h, hread'] at hread
      obtain ⟨rfl, htail⟩ := Prod.mk.inj (Option.some.inj hread)
      obtain ⟨rfl, hrest⟩ := ih htail.symm
      exact ⟨rfl, hrest⟩

/-! ## Numbers -/

def ascii (c : Char) : UInt16 := UInt16.ofNat c.toNat

/-- `String(n)` of a number. -/
def decimalText (d : Json.Decimal) : Text := d.text.map ascii

def character (u : UInt16) : Char := Char.ofNat u.toNat

theorem character_ascii {c : Char} (h : c.toNat < 128) : character (ascii c) = c := by
  have hunit : (UInt16.ofNat c.toNat).toNat = c.toNat := by
    rw [UInt16.toNat_ofNat']
    exact Nat.mod_eq_of_lt (by omega)
  rw [character, ascii, hunit, Char.ofNat_toNat]

theorem isDigit_toNat {c : Char} (h : c.isDigit = true) : c.toNat < 128 := by
  have hle : c.toNat ≤ 57 := by
    simp only [Char.isDigit, Bool.and_eq_true, decide_eq_true_eq] at h
    exact h.2
  omega

theorem decimal_ascii (d : Json.Decimal) : ∀ c ∈ d.text, c.toNat < 128 := by
  obtain ⟨hwf, -⟩ := d.parts_value
  intro c hc
  simp only [Json.Decimal.text, Json.NumberParts.text, List.mem_append] at hc
  rcases hc with hc | (hc | hc) | hc
  · split at hc
    · rw [List.mem_singleton.mp hc]
      decide
    · cases hc
  · exact isDigit_toNat (hwf.int_digits c hc)
  · split at hc
    · cases hc
    · rcases List.mem_cons.mp hc with rfl | hc
      · decide
      · exact isDigit_toNat (hwf.frac_digits c hc)
  · split at hc
    · cases hc
    · next e _ =>
      simp only [Json.exponentText, List.mem_cons] at hc
      rcases hc with rfl | hc | hc
      · decide
      · rw [hc]
        split <;> decide
      · exact isDigit_toNat (Json.isDigit_toDigits _ c hc)

theorem map_character_decimalText (d : Json.Decimal) (rest : Text) :
    (decimalText d ++ rest).map character = d.text ++ rest.map character := by
  rw [List.map_append, decimalText, List.map_map]
  congr 1
  have hmap : d.text.map (character ∘ ascii) = d.text.map id := by
    apply List.map_congr_left
    intro c hc
    exact character_ascii (decimal_ascii d c hc)
  rw [hmap, List.map_id]

/-- **No two numbers are written alike**, where neither goes on. -/
theorem decimalText_append_inj {d d' : Json.Decimal} {rest rest' : Text}
    (h : decimalText d ++ rest = decimalText d' ++ rest')
    (hrest : Json.NumberEnd (rest.map character)) (hrest' : Json.NumberEnd (rest'.map character)) :
    d = d' ∧ rest = rest' := by
  have hparse := Json.parseNumber_text d hrest
  rw [← map_character_decimalText, h, map_character_decimalText, Json.parseNumber_text d' hrest']
    at hparse
  obtain ⟨rfl, -⟩ := Prod.mk.inj (Option.some.inj hparse)
  exact ⟨rfl, List.append_cancel_left h⟩

/-! ## Natural numbers -/

def naturalText (n : Nat) : Text := (Nat.toDigits 10 n).map ascii

def isDigitUnit (u : UInt16) : Bool := (character u).isDigit

def readNatural (s : Text) : Option (Nat × Text) :=
  match s.takeWhile isDigitUnit with
  | [] => none
  | digits => some (Nat.ofDigitChars 10 (digits.map character) 0, s.dropWhile isDigitUnit)

theorem character_digits (n : Nat) :
    (naturalText n).map character = Nat.toDigits 10 n := by
  rw [naturalText, List.map_map]
  have hmap : (Nat.toDigits 10 n).map (character ∘ ascii) = (Nat.toDigits 10 n).map id := by
    apply List.map_congr_left
    intro c hc
    exact character_ascii (isDigit_toNat (Json.isDigit_toDigits n c hc))
  rw [hmap, List.map_id]

theorem isDigitUnit_naturalText (n : Nat) : ∀ u ∈ naturalText n, isDigitUnit u = true := by
  intro u hu
  have hmem : character u ∈ (naturalText n).map character := List.mem_map_of_mem hu
  rw [character_digits] at hmem
  exact Json.isDigit_toDigits n _ hmem

/-- **A number is read back** where it ends. -/
theorem readNatural_append {n : Nat} {rest : Text}
    (hrest : ∀ u ∈ rest.head?, isDigitUnit u = false) :
    readNatural (naturalText n ++ rest) = some (n, rest) := by
  have hdigits := isDigitUnit_naturalText n
  have htail : rest.takeWhile isDigitUnit = [] ∧ rest.dropWhile isDigitUnit = rest := by
    cases rest with
    | nil => exact ⟨rfl, rfl⟩
    | cons u rest =>
      have hu : isDigitUnit u = false := hrest u rfl
      simp [hu]
  have htake : (naturalText n ++ rest).takeWhile isDigitUnit = naturalText n := by
    rw [List.takeWhile_append_of_pos hdigits, htail.1, List.append_nil]
  have hdrop : (naturalText n ++ rest).dropWhile isDigitUnit = rest := by
    rw [List.dropWhile_append_of_pos hdigits, htail.2]
  have hne : naturalText n ≠ [] := by
    rw [naturalText, Ne, List.map_eq_nil_iff]
    exact Nat.toDigits_ne_nil
  rw [readNatural, htake, hdrop]
  split
  · next hnil => exact absurd hnil hne
  · rw [character_digits, Nat.ofDigitChars_toDigits (by decide) (by decide)]

end Utf16
