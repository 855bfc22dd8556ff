import ThreeXhaust.Lib.CodePoints
import ThreeXhaust.Lib.Sqlite

/-!
# Text in the store

`store/text.ts`: strings are compared by code point, as SQLite's `BINARY` does, and a prefix becomes
a range of strings. Both work on code units; on well-formed strings they say what code points say.
-/

namespace ThreeXhaust.Chord.Store

open Utf16 (Text charUnits ofChars chars)

def codePointRank (unit : UInt16) : Nat :=
  if unit.toNat < 0xD800 then unit.toNat
  else if unit.toNat < 0xE000 then unit.toNat + 0x2000
  else unit.toNat - 0x800

def compareText : Text → Text → Int
  | x :: a, y :: b => if x ≠ y then codePointRank x - codePointRank y else compareText a b
  | a, b => a.length - b.length

/-- Text as the store keeps it, none where it is refused. -/
def storedText (text : Text) : Option Text :=
  if text.contains 0 then none else some (Utf16.toWellFormed text)

def nextPoint (c : Char) : Char :=
  Char.ofNat (if c.toNat = 0xD7FF then 0xE000 else c.toNat + 1)

/-- The loop of `prefixUpperBound`; the last point comes first. -/
def upperBound : List Char → Option (List Char)
  | [] => none
  | last :: points =>
    if last.toNat = 0x10FFFF then upperBound points else some ((nextPoint last :: points).reverse)

def prefixUpperBound (text : Text) : Option Text :=
  (upperBound (chars text).reverse).map ofChars

/-! ## The order -/

theorem compareText_self (rest rest' units : Text) :
    compareText (units ++ rest) (units ++ rest') = compareText rest rest' := by
  induction units with
  | nil => rfl
  | cons u units ih =>
    rw [List.cons_append, List.cons_append, compareText, if_neg (fun h => h rfl), ih]

theorem codePointRank_plain {u : UInt16} (hhigh : Utf16.isHighSurrogate u = false)
    (hlow : Utf16.isLowSurrogate u = false) :
    (codePointRank u = u.toNat ∧ u.toNat < 0xD800) ∨
      (codePointRank u = u.toNat - 0x800 ∧ 0xE000 ≤ u.toNat) := by
  rw [Bool.eq_false_iff, Ne, Utf16.isHighSurrogate_iff] at hhigh
  rw [Bool.eq_false_iff, Ne, Utf16.isLowSurrogate_iff] at hlow
  unfold codePointRank
  split_ifs with h h'
  · exact .inl ⟨rfl, h⟩
  · omega
  · exact .inr ⟨rfl, by omega⟩

theorem codePointRank_surrogate {u : UInt16}
    (h : Utf16.isHighSurrogate u = true ∨ Utf16.isLowSurrogate u = true) :
    codePointRank u = u.toNat + 0x2000 := by
  rw [Utf16.isHighSurrogate_iff, Utf16.isLowSurrogate_iff] at h
  unfold codePointRank
  rw [if_neg (by omega), if_pos (by omega)]

theorem compareText_cons_ne {x y : UInt16} (h : x ≠ y) (a b : Text) :
    compareText (x :: a) (y :: b) = codePointRank x - codePointRank y := by
  rw [compareText, if_pos h]

theorem compareText_charUnits {c d : Char} (h : c.toNat < d.toNat) (a b : Text) :
    compareText (charUnits c ++ a) (charUnits d ++ b) < 0 ∧
      0 < compareText (charUnits d ++ b) (charUnits c ++ a) := by
  -- a plain unit or a pair, on each side
  obtain ⟨u, hu, hcu, hlt, hhigh, hlow⟩ | ⟨u, v, hu, hhigh, hlow, hcu⟩ := Utf16.charUnits_cases c <;>
    obtain ⟨u', hu', hdu, hlt', hhigh', hlow'⟩ | ⟨u', v', hu', hhigh', hlow', hdu⟩ :=
      Utf16.charUnits_cases d <;>
    rw [hu, hu'] <;>
    simp only [List.cons_append, List.nil_append]
  · have hne : u ≠ u' := by
      rintro rfl
      omega
    have hrank := codePointRank_plain hhigh hlow
    have hrank' := codePointRank_plain hhigh' hlow'
    rw [compareText_cons_ne hne, compareText_cons_ne hne.symm]
    omega
  · have hne : u ≠ u' := by
      rintro rfl
      rw [hhigh] at hhigh'
      cases hhigh'
    have hrank := codePointRank_plain hhigh hlow
    have hrank' := codePointRank_surrogate (.inl hhigh')
    rw [Utf16.isHighSurrogate_iff] at hhigh'
    rw [compareText_cons_ne hne, compareText_cons_ne hne.symm]
    have := u.toNat_lt
    omega
  · omega
  · have hrank := codePointRank_surrogate (.inl hhigh)
    have hrank' := codePointRank_surrogate (.inl hhigh')
    have hrankv := codePointRank_surrogate (.inr hlow)
    have hrankv' := codePointRank_surrogate (.inr hlow')
    rw [Utf16.isHighSurrogate_iff] at hhigh hhigh'
    rw [Utf16.isLowSurrogate_iff] at hlow hlow'
    by_cases hne : u = u'
    · subst hne
      have hnev : v ≠ v' := by
        rintro rfl
        omega
      have hskip (x y : UInt16) (a b : Text) :
          compareText (u :: x :: a) (u :: y :: b) = compareText (x :: a) (y :: b) :=
        compareText_self (x :: a) (y :: b) [u]
      rw [hskip, hskip, compareText_cons_ne hnev, compareText_cons_ne hnev.symm]
      omega
    · have hunits : u.toNat ≠ u'.toNat := fun h => hne (UInt16.toNat_inj.mp h)
      rw [compareText_cons_ne hne, compareText_cons_ne (Ne.symm hne)]
      omega

theorem length_ofChars_pos (c : Char) (cs : List Char) : 0 < (ofChars (c :: cs)).length := by
  rw [Utf16.ofChars_cons, List.length_append]
  have := List.length_pos_iff.mpr (Utf16.charUnits_ne_nil c)
  omega

/-- **`compareText` is `BINARY`.** -/
theorem compareText_ofChars (cs ds : List Char) :
    compare (compareText (ofChars cs) (ofChars ds)) 0 = Sqlite.binary cs ds := by
  induction cs generalizing ds with
  | nil =>
    cases ds with
    | nil => rfl
    | cons d ds =>
      have hpos := length_ofChars_pos d ds
      show compare (((0 : Nat) : Int) - _) 0 = Ordering.lt
      rw [Int.compare_eq_lt]
      omega
  | cons c cs ih =>
    cases ds with
    | nil =>
      have hpos := length_ofChars_pos c cs
      have hlen : compareText (ofChars (c :: cs)) (ofChars []) =
          (ofChars (c :: cs)).length - ((0 : Nat) : Int) := by
        cases ofChars (c :: cs) <;> rfl
      rw [hlen, Sqlite.binary, Int.compare_eq_gt]
      omega
    | cons d ds =>
      rw [Utf16.ofChars_cons, Utf16.ofChars_cons, Sqlite.binary]
      split_ifs with hlt hgt
      · exact Int.compare_eq_lt.mpr (compareText_charUnits hlt _ _).1
      · exact Int.compare_eq_gt.mpr (compareText_charUnits hgt _ _).2
      · obtain rfl : c = d := Utf16.toNat_inj (by omega)
        rw [compareText_self, ih]

/-! ## Prefixes -/

end ThreeXhaust.Chord.Store
