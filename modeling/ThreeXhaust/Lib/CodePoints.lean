import ThreeXhaust.Lib.Utf16

/-!
# Code points of JavaScript strings

A well-formed string is its code points, each written as one code unit or as a surrogate pair. What
a program does to code units it then does to code points: a prefix, a concatenation, a length.

* **`ofChars_chars`**, **`chars_ofChars`** — the two forms are inverse to each other.
* **`charUnits_append_inj`** — no character's units start another's.
-/

namespace Utf16

def charUnits (c : Char) : Text :=
  if c.toNat < 65536 then [UInt16.ofNat c.toNat]
  else
    [UInt16.ofNat (55296 + (c.toNat - 65536) / 1024),
      UInt16.ofNat (56320 + (c.toNat - 65536) % 1024)]

def ofChars (cs : List Char) : Text := cs.flatMap charUnits

/-- A code unit that stands alone; half a pair counts as U+FFFD. -/
def unitChar (u : UInt16) : Char := Char.ofNat (replaceLone u).toNat

def pairChar (u v : UInt16) : Char :=
  Char.ofNat (65536 + (u.toNat - 55296) * 1024 + (v.toNat - 56320))

@[grind =] def chars : Text → List Char
  | [] => []
  | [u] => [unitChar u]
  | u :: v :: rest =>
    if isHighSurrogate u && isLowSurrogate v then pairChar u v :: chars rest
    else unitChar u :: chars (v :: rest)

@[simp] theorem ofChars_nil : ofChars [] = [] := rfl

@[simp] theorem ofChars_cons (c : Char) (cs : List Char) :
    ofChars (c :: cs) = charUnits c ++ ofChars cs := List.flatMap_cons

@[simp] theorem ofChars_append (cs ds : List Char) :
    ofChars (cs ++ ds) = ofChars cs ++ ofChars ds := List.flatMap_append

/-! ## One character -/

theorem toNat_char (c : Char) :
    c.toNat < 0xD800 ∨ (0xE000 ≤ c.toNat ∧ c.toNat ≤ 0x10FFFF) := by
  have h := c.valid
  simp only [UInt32.isValidChar, Nat.isValidChar] at h
  show c.val.toNat < _ ∨ (_ ≤ c.val.toNat ∧ c.val.toNat ≤ _)
  omega

variable {c : Char}

theorem toNat_inj {d : Char} (h : c.toNat = d.toNat) : c = d := by
  rw [← Char.ofNat_toNat c, h, Char.ofNat_toNat]

theorem toNat_ofNat {n : Nat} (h : n.isValidChar) : (Char.ofNat n).toNat = n := by
  rw [Char.ofNat, dif_pos h]
  rfl

variable {u : UInt16}

theorem isHighSurrogate_iff : isHighSurrogate u = true ↔ 0xD800 ≤ u.toNat ∧ u.toNat ≤ 0xDBFF := by
  simp only [isHighSurrogate, Bool.and_eq_true, decide_eq_true_eq, UInt16.le_iff_toNat_le]
  exact Iff.rfl

theorem isLowSurrogate_iff : isLowSurrogate u = true ↔ 0xDC00 ≤ u.toNat ∧ u.toNat ≤ 0xDFFF := by
  simp only [isLowSurrogate, Bool.and_eq_true, decide_eq_true_eq, UInt16.le_iff_toNat_le]
  exact Iff.rfl

theorem charUnits_cases (c : Char) :
    (∃ u : UInt16, charUnits c = [u] ∧ u.toNat = c.toNat ∧ c.toNat < 65536 ∧
      isHighSurrogate u = false ∧ isLowSurrogate u = false) ∨
    (∃ u v : UInt16, charUnits c = [u, v] ∧ isHighSurrogate u = true ∧ isLowSurrogate v = true ∧
      c.toNat = 65536 + (u.toNat - 55296) * 1024 + (v.toNat - 56320)) := by
  have hc := toNat_char c
  unfold charUnits
  split
  · next hlt =>
    left
    have hu : (UInt16.ofNat c.toNat).toNat = c.toNat := by
      rw [UInt16.toNat_ofNat']
      omega
    refine ⟨_, rfl, hu, hlt, ?_, ?_⟩
    · rw [Bool.eq_false_iff, Ne, isHighSurrogate_iff, hu]
      omega
    · rw [Bool.eq_false_iff, Ne, isLowSurrogate_iff, hu]
      omega
  · next hlt =>
    right
    have hu : (UInt16.ofNat (55296 + (c.toNat - 65536) / 1024)).toNat =
        55296 + (c.toNat - 65536) / 1024 := by
      rw [UInt16.toNat_ofNat']
      omega
    have hv : (UInt16.ofNat (56320 + (c.toNat - 65536) % 1024)).toNat =
        56320 + (c.toNat - 65536) % 1024 := by
      rw [UInt16.toNat_ofNat']
      omega
    refine ⟨_, _, rfl, ?_, ?_, ?_⟩
    · rw [isHighSurrogate_iff, hu]
      omega
    · rw [isLowSurrogate_iff, hv]
      omega
    · rw [hu, hv]
      omega

theorem charUnits_append_inj {d : Char} {rest rest' : Text}
    (h : charUnits c ++ rest = charUnits d ++ rest') : c = d ∧ rest = rest' := by
  obtain ⟨u, hu, hcu, -, hhigh, -⟩ | ⟨u, v, hu, hhigh, -, hcu⟩ := charUnits_cases c <;>
    obtain ⟨u', hu', hdu, -, hhigh', -⟩ | ⟨u', v', hu', hhigh', -, hdu⟩ := charUnits_cases d <;>
    rw [hu, hu'] at h <;>
    simp only [List.cons_append, List.nil_append, List.cons.injEq] at h
  · obtain ⟨rfl, hrest⟩ := h
    exact ⟨toNat_inj (hcu.symm.trans hdu), hrest⟩
  · rw [h.1, hhigh'] at hhigh
    cases hhigh
  · rw [h.1, hhigh'] at hhigh
    cases hhigh
  · obtain ⟨rfl, rfl, hrest⟩ := h
    exact ⟨toNat_inj (hcu.trans hdu.symm), hrest⟩

theorem charUnits_ne_nil (c : Char) : charUnits c ≠ [] := by
  unfold charUnits
  split <;> exact List.cons_ne_nil _ _

/-! ## Strings -/

theorem unitChar_of_plain (hhigh : isHighSurrogate u = false) (hlow : isLowSurrogate u = false)
    (hu : u.toNat = c.toNat) : unitChar u = c := by
  rw [unitChar, replaceLone, hhigh, hlow, Bool.or_self, if_neg Bool.false_ne_true, hu,
    Char.ofNat_toNat]

theorem chars_cons_plain (hhigh : isHighSurrogate u = false) (rest : Text) :
    chars (u :: rest) = unitChar u :: chars rest := by
  cases rest with
  | nil => rfl
  | cons v rest => rw [chars, hhigh, Bool.false_and, if_neg Bool.false_ne_true]

@[simp] theorem chars_ofChars (cs : List Char) : chars (ofChars cs) = cs := by
  induction cs with
  | nil => rfl
  | cons c cs ih =>
    rw [ofChars_cons]
    obtain ⟨u, hu, hcu, -, hhigh, hlow⟩ | ⟨u, v, hu, hhigh, hlow, hcu⟩ := charUnits_cases c
    · rw [hu, List.singleton_append, chars_cons_plain hhigh, ih, unitChar_of_plain hhigh hlow hcu]
    · show chars ((charUnits c) ++ ofChars cs) = _
      rw [hu, List.cons_append, List.singleton_append, chars, hhigh, hlow, Bool.and_self,
        if_pos rfl, ih, pairChar, ← hcu, Char.ofNat_toNat]

theorem isWellFormed_ofChars (cs : List Char) : isWellFormed (ofChars cs) = true := by
  induction cs with
  | nil => rfl
  | cons c cs ih =>
    rw [ofChars_cons]
    obtain ⟨u, hu, -, -, hhigh, hlow⟩ | ⟨u, v, hu, hhigh, hlow, -⟩ := charUnits_cases c
    · rw [hu, List.singleton_append, isWellFormed_cons hhigh hlow, ih]
    · rw [hu, List.cons_append, List.singleton_append, isWellFormed, hhigh, hlow, Bool.and_self,
        if_pos rfl, ih]

theorem charUnits_unitChar (hhigh : isHighSurrogate u = false) (hlow : isLowSurrogate u = false)
    : charUnits (unitChar u) = [u] := by
  have hlt := u.toNat_lt
  rw [Bool.eq_false_iff, Ne, isHighSurrogate_iff] at hhigh
  rw [Bool.eq_false_iff, Ne, isLowSurrogate_iff] at hlow
  have hc : (unitChar u).toNat = u.toNat := by
    rw [unitChar, replaceLone, if_neg]
    · exact toNat_ofNat (by simp only [Nat.isValidChar]; omega)
    · rw [Bool.or_eq_true, isHighSurrogate_iff, isLowSurrogate_iff]
      omega
  rw [charUnits, hc, if_pos (by omega), UInt16.ofNat_toNat]

theorem charUnits_pairChar {v : UInt16} (hhigh : isHighSurrogate u = true)
    (hlow : isLowSurrogate v = true) : charUnits (pairChar u v) = [u, v] := by
  rw [isHighSurrogate_iff] at hhigh
  rw [isLowSurrogate_iff] at hlow
  have hc : (pairChar u v).toNat = 65536 + (u.toNat - 55296) * 1024 + (v.toNat - 56320) :=
    toNat_ofNat (by simp only [Nat.isValidChar]; omega)
  have hu : 55296 + ((pairChar u v).toNat - 65536) / 1024 = u.toNat := by
    rw [hc]
    omega
  have hv : 56320 + ((pairChar u v).toNat - 65536) % 1024 = v.toNat := by
    rw [hc]
    omega
  rw [charUnits, if_neg (by omega), hu, hv, UInt16.ofNat_toNat, UInt16.ofNat_toNat]

theorem ofChars_chars {s : Text} (h : isWellFormed s = true) : ofChars (chars s) = s := by
  fun_induction chars s with
  | case1 => rfl
  | case2 u =>
    simp only [isWellFormed, Bool.not_eq_true', Bool.or_eq_false_iff] at h
    rw [ofChars_cons, charUnits_unitChar h.1 h.2, ofChars_nil, List.append_nil]
  | case3 u v rest hpair ih =>
    rw [isWellFormed, if_pos hpair] at h
    rw [Bool.and_eq_true] at hpair
    rw [ofChars_cons, charUnits_pairChar hpair.1 hpair.2, ih h]
    rfl
  | case4 u v rest hpair ih =>
    rw [isWellFormed, if_neg hpair, Bool.and_eq_true, Bool.not_eq_true',
      Bool.or_eq_false_iff] at h
    rw [ofChars_cons, charUnits_unitChar h.1.1 h.1.2, ih h.2]
    rfl

theorem ofChars_prefix_iff {cs ds : List Char} : ofChars cs <+: ofChars ds ↔ cs <+: ds := by
  constructor
  · intro h
    induction cs generalizing ds with
    | nil => exact List.nil_prefix
    | cons c cs ih =>
      obtain ⟨rest, hrest⟩ := h
      rw [ofChars_cons, List.append_assoc] at hrest
      cases ds with
      | nil => exact absurd (List.append_eq_nil_iff.mp hrest).1 (charUnits_ne_nil c)
      | cons d ds =>
        rw [ofChars_cons] at hrest
        obtain ⟨rfl, htail⟩ := charUnits_append_inj hrest
        exact List.cons_prefix_cons.mpr ⟨rfl, ih ⟨rest, htail⟩⟩
  · rintro ⟨rest, rfl⟩
    exact ⟨ofChars rest, (ofChars_append cs rest).symm⟩

/-! ## Code points of any string

A scan by code points takes a pair as one and every other unit as itself, half pairs too. -/

/-- `s.codePointAt(i)`, of the units from `i` on. -/
def codePointAt : Text → Option Nat
  | [] => none
  | [u] => some u.toNat
  | u :: v :: _ =>
    if isHighSurrogate u && isLowSurrogate v then
      some (65536 + (u.toNat - 55296) * 1024 + (v.toNat - 56320))
    else some u.toNat

/-- `String.fromCodePoint(point)`. -/
def fromCodePoint (point : Nat) : Text :=
  if point < 65536 then [UInt16.ofNat point]
  else
    [UInt16.ofNat (55296 + (point - 65536) / 1024), UInt16.ofNat (56320 + (point - 65536) % 1024)]

theorem fromCodePoint_unit (u : UInt16) : fromCodePoint u.toNat = [u] := by
  have hu := u.toNat_lt
  rw [fromCodePoint, if_pos (by omega), UInt16.ofNat_toNat]

theorem fromCodePoint_pair {v : UInt16} (hhigh : isHighSurrogate u = true)
    (hlow : isLowSurrogate v = true) :
    fromCodePoint (65536 + (u.toNat - 55296) * 1024 + (v.toNat - 56320)) = [u, v] := by
  rw [isHighSurrogate_iff] at hhigh
  rw [isLowSurrogate_iff] at hlow
  have hu : 55296 + (65536 + (u.toNat - 55296) * 1024 + (v.toNat - 56320) - 65536) / 1024 =
      u.toNat := by
    omega
  have hv : 56320 + (65536 + (u.toNat - 55296) * 1024 + (v.toNat - 56320) - 65536) % 1024 =
      v.toNat := by
    omega
  rw [fromCodePoint, if_neg (by omega), hu, hv, UInt16.ofNat_toNat, UInt16.ofNat_toNat]

theorem codePointAt_cases {text : Text} {point : Nat} (h : codePointAt text = some point) :
    (∃ u rest, text = u :: rest ∧ point = u.toNat ∧ fromCodePoint point = [u]) ∨
    (∃ u v rest, text = u :: v :: rest ∧ 65536 ≤ point ∧ fromCodePoint point = [u, v] ∧
      isHighSurrogate u = true ∧ isLowSurrogate v = true) := by
  match text with
  | [] => cases h
  | [u] =>
    obtain rfl := Option.some.inj h
    exact Or.inl ⟨u, [], rfl, rfl, fromCodePoint_unit u⟩
  | u :: v :: rest =>
    rw [codePointAt] at h
    split at h
    · next hpair =>
      obtain ⟨hhigh, hlow⟩ := Bool.and_eq_true_iff.mp hpair
      obtain rfl := Option.some.inj h
      exact Or.inr ⟨u, v, rest, rfl, by omega, fromCodePoint_pair hhigh hlow, hhigh, hlow⟩
    · obtain rfl := Option.some.inj h
      exact Or.inl ⟨u, v :: rest, rfl, rfl, fromCodePoint_unit u⟩

theorem codePointAt_eq_none {text : Text} (h : codePointAt text = none) : text = [] := by
  match text with
  | [] => rfl
  | [_] => cases h
  | u :: v :: rest =>
    rw [codePointAt] at h
    split at h <;> cases h

/-- **The character read at a place starts what stands there.** -/
theorem fromCodePoint_append_drop {text : Text} {point : Nat}
    (h : codePointAt text = some point) :
    fromCodePoint point ++ text.drop (fromCodePoint point).length = text := by
  obtain ⟨u, rest, rfl, -, hunits⟩ | ⟨u, v, rest, rfl, -, hunits, -⟩ := codePointAt_cases h
  · rw [hunits]
    rfl
  · rw [hunits]
    rfl

theorem length_fromCodePoint_pos (point : Nat) : 0 < (fromCodePoint point).length := by
  rw [fromCodePoint]
  split
  · exact Nat.one_pos
  · exact Nat.two_pos

end Utf16
