import Mathlib.Data.List.TakeDrop
import Mathlib.Tactic.IntervalCases
import Mathlib.Tactic.Linarith
import Mathlib.Tactic.Ring

/-!
# JSON numbers and their text

A finite number is kept in the form `Number::toString` of ECMAScript computes for it: the
shortest run of significant decimal digits, read as one natural number, and a power of ten.
Every finite double other than `-0` has exactly one such form, and printing followed by
reading is the identity on it, so nothing about binary rounding is needed to talk about a
value that went through its own text. `-0` prints as `0` and is identified with it.

* `Decimal.ofScaled` — the normal form of `± m · 10 ^ e`, what a reader computes.
* `Decimal.text` — the four layouts of `Number::toString`.
* `parseNumber` — the JSON number grammar.
-/

namespace Json

/-! ## The normal form -/

/-- A finite number as its shortest decimal form `± digits · 10 ^ exponent`. -/
structure Decimal where
  negative : Bool
  digits : Nat
  exponent : Int
  normal : (digits = 0 ∧ negative = false ∧ exponent = 0) ∨ digits % 10 ≠ 0
deriving DecidableEq

/-- Move trailing zero digits of `m` into the exponent. The first argument bounds the
number of rounds; `m` rounds are always enough. -/
@[grind =] def stripZeros : Nat → Nat → Int → Nat × Int
  | 0, m, e => (m, e)
  | fuel + 1, m, e => if m % 10 = 0 then stripZeros fuel (m / 10) (e + 1) else (m, e)

theorem stripZeros_mod (fuel m : Nat) (e : Int) (hm : 0 < m) (hf : m ≤ fuel) :
    (stripZeros fuel m e).1 % 10 ≠ 0 := by
  induction fuel generalizing m e with
  | zero => omega
  | succ fuel ih =>
    simp only [stripZeros]
    split
    · next h => exact ih (m / 10) (e + 1) (by omega) (by omega)
    · next h => exact h

theorem stripZeros_shift (j fuel m : Nat) (e : Int) (hm : m % 10 ≠ 0) (hf : j ≤ fuel) :
    stripZeros fuel (10 ^ j * m) (e - j) = (m, e) := by
  induction j generalizing fuel e with
  | zero =>
    cases fuel with
    | zero => simp [stripZeros]
    | succ fuel => simp [stripZeros, hm]
  | succ j ih =>
    obtain ⟨fuel, rfl⟩ : ∃ f, fuel = f + 1 := ⟨fuel - 1, by omega⟩
    have hmod : 10 ^ (j + 1) * m % 10 = 0 := by
      rw [pow_succ]
      exact Nat.mod_eq_zero_of_dvd ⟨10 ^ j * m, by ring⟩
    have hdiv : 10 ^ (j + 1) * m / 10 = 10 ^ j * m := by
      rw [pow_succ, show 10 ^ j * 10 * m = 10 * (10 ^ j * m) by ring]
      exact Nat.mul_div_cancel_left _ (by omega)
    simp only [stripZeros, hmod, if_true, hdiv]
    rw [show e - ((j + 1 : Nat) : Int) + 1 = e - (j : Int) by push_cast; ring]
    exact ih fuel e (by omega)

/-- The normal form of `± m · 10 ^ e`. -/
def Decimal.ofScaled (negative : Bool) (m : Nat) (e : Int) : Decimal :=
  if h : m = 0 then ⟨false, 0, 0, .inl ⟨rfl, rfl, rfl⟩⟩
  else
    ⟨negative, (stripZeros m m e).1, (stripZeros m m e).2,
      .inr (stripZeros_mod m m e (Nat.pos_of_ne_zero h) le_rfl)⟩

theorem Decimal.ofScaled_shift (d : Decimal) (j : Nat) :
    Decimal.ofScaled d.negative (10 ^ j * d.digits) (d.exponent - j) = d := by
  obtain ⟨neg, m, e, hn⟩ := d
  by_cases hm : m = 0
  · rcases hn with ⟨-, rfl, rfl⟩ | h
    · simp [Decimal.ofScaled, hm]
    · exact absurd (by simp [hm]) h
  · have hmod : m % 10 ≠ 0 := by
      rcases hn with ⟨h, -, -⟩ | h
      · exact absurd h hm
      · exact h
    have hpos : 10 ^ j * m ≠ 0 := by positivity
    have hj : j ≤ 10 ^ j * m := by
      have h1 : j < 10 ^ j := Nat.lt_pow_self (by omega)
      have h2 : 10 ^ j * 1 ≤ 10 ^ j * m := Nat.mul_le_mul_left _ (Nat.pos_of_ne_zero hm)
      omega
    have hs := stripZeros_shift j (10 ^ j * m) m e hmod hj
    simp only [Decimal.ofScaled, hpos, dif_neg, not_false_eq_true, hs]

def Decimal.ofNat (n : Nat) : Decimal := Decimal.ofScaled false n 0

def Decimal.toNat? (d : Decimal) : Option Nat :=
  if d.negative = false ∧ 0 ≤ d.exponent then some (d.digits * 10 ^ d.exponent.toNat) else none

theorem stripZeros_value (fuel m e : Nat) :
    0 ≤ (stripZeros fuel m e).2 ∧
      (stripZeros fuel m e).1 * 10 ^ (stripZeros fuel m e).2.toNat = m * 10 ^ e := by
  induction fuel generalizing m e with
  | zero => simp [stripZeros]
  | succ fuel ih =>
    simp only [stripZeros]
    split
    · next h =>
      have := ih (m / 10) (e + 1)
      push_cast at this
      refine ⟨this.1, this.2.trans ?_⟩
      rw [pow_succ, show m / 10 * (10 ^ e * 10) = 10 * (m / 10) * 10 ^ e by ring,
        Nat.mul_div_cancel' (Nat.dvd_of_mod_eq_zero h)]
    · simp

@[simp] theorem Decimal.toNat?_ofNat (n : Nat) : (Decimal.ofNat n).toNat? = some n := by
  by_cases hn : n = 0
  · subst hn; rfl
  · have h := stripZeros_value n n 0
    simp only [Nat.cast_zero, pow_zero, mul_one] at h
    simp [Decimal.ofNat, Decimal.ofScaled, hn, Decimal.toNat?, h.1, h.2]

/-! ## Printing -/

/-- The pieces of a JSON number after its sign: integer digits, fraction digits (empty when
there is no point), and the exponent when one is written. -/
structure NumberParts where
  int : List Char
  frac : List Char
  exp : Option Int

/-- Exponent suffix `e+n` or `e-n`. -/
def exponentText (e : Int) : List Char :=
  'e' :: (if e < 0 then '-' else '+') :: Nat.toDigits 10 e.natAbs

def NumberParts.text (p : NumberParts) : List Char :=
  p.int ++ (if p.frac = [] then [] else '.' :: p.frac)
    ++ (match p.exp with
        | none => []
        | some e => exponentText e)

/-- The layout `Number::toString` picks, from the digits `ds` and the position `n` of the
decimal point counted from their left end. -/
def layout (ds : List Char) (n : Int) : NumberParts :=
  if ds.length ≤ n ∧ n ≤ 21 then
    ⟨ds ++ List.replicate (n - ds.length).toNat '0', [], none⟩
  else if 0 < n ∧ n ≤ 21 then
    ⟨ds.take n.toNat, ds.drop n.toNat, none⟩
  else if -6 < n ∧ n ≤ 0 then
    ⟨['0'], List.replicate (-n).toNat '0' ++ ds, none⟩
  else
    ⟨ds.take 1, ds.drop 1, some (n - 1)⟩

/-- The pieces `Number::toString` prints a number as. -/
def Decimal.parts (d : Decimal) : NumberParts :=
  layout (Nat.toDigits 10 d.digits) ((Nat.toDigits 10 d.digits).length + d.exponent)

/-- `Number::toString`. -/
def Decimal.text (d : Decimal) : List Char :=
  (if d.negative then ['-'] else []) ++ d.parts.text

/-! ## Reading -/

/-- The optional fraction of a JSON number: a point needs at least one digit after it. -/
def parseFrac : List Char → Option (List Char × List Char)
  | '.' :: rest =>
    let (f, rest) := rest.span Char.isDigit
    if f = [] then none else some (f, rest)
  | rest => some ([], rest)

def parseExpDigits (negative : Bool) (cs : List Char) : Option (Int × List Char) :=
  let (ds, rest) := cs.span Char.isDigit
  if ds = [] then none
  else
    let n : Int := Nat.ofDigitChars 10 ds 0
    some (if negative then -n else n, rest)

def parseExp : List Char → Option (Int × List Char)
  | 'e' :: '-' :: rest => parseExpDigits true rest
  | 'e' :: '+' :: rest => parseExpDigits false rest
  | 'e' :: rest => parseExpDigits false rest
  | 'E' :: '-' :: rest => parseExpDigits true rest
  | 'E' :: '+' :: rest => parseExpDigits false rest
  | 'E' :: rest => parseExpDigits false rest
  | rest => some (0, rest)

/-- A JSON number without its sign. A leading zero stands alone before the point. -/
def parseMagnitude (negative : Bool) (cs : List Char) : Option (Decimal × List Char) :=
  let (int, rest) := cs.span Char.isDigit
  if int = [] ∨ (int.head? = some '0' ∧ int.length ≠ 1) then none
  else
    match parseFrac rest with
    | none => none
    | some (frac, rest) =>
      match parseExp rest with
      | none => none
      | some (e, rest) =>
        some (.ofScaled negative (Nat.ofDigitChars 10 (int ++ frac) 0) (e - frac.length), rest)

def parseNumber : List Char → Option (Decimal × List Char)
  | '-' :: cs => parseMagnitude true cs
  | cs => parseMagnitude false cs

/-! ## Reading back what was printed -/

/-- What may follow a number: nothing that could continue it. -/
def NumberEnd (rest : List Char) : Prop :=
  ∀ c ∈ rest.head?, c.isDigit = false ∧ c ≠ '.' ∧ c ≠ 'e' ∧ c ≠ 'E'

theorem span_digits {ds rest : List Char} (hd : ∀ c ∈ ds, c.isDigit)
    (hr : ∀ c ∈ rest.head?, c.isDigit = false) :
    (ds ++ rest).span Char.isDigit = (ds, rest) := by
  rw [List.span_eq_takeWhile_dropWhile]
  have hrest : rest.takeWhile Char.isDigit = [] ∧ rest.dropWhile Char.isDigit = rest := by
    cases rest with
    | nil => simp
    | cons c cs =>
      have := hr c (by simp)
      simp [this]
  rw [List.takeWhile_append_of_pos hd, List.dropWhile_append_of_pos hd, hrest.1, hrest.2]
  simp

theorem parseExpDigits_toDigits (negative : Bool) (n : Nat) {rest : List Char}
    (hr : ∀ c ∈ rest.head?, c.isDigit = false) :
    parseExpDigits negative (Nat.toDigits 10 n ++ rest) =
      some (if negative then -(n : Int) else n, rest) := by
  have hd : ∀ c ∈ Nat.toDigits 10 n, c.isDigit :=
    fun c hc => Nat.isDigit_of_mem_toDigits (by omega) (by omega) hc
  simp only [parseExpDigits, span_digits hd hr, Nat.toDigits_ne_nil, if_false,
    Nat.ofDigitChars_toDigits (b := 10) (by omega) le_rfl]

theorem parseExp_text (e : Int) {rest : List Char}
    (hr : ∀ c ∈ rest.head?, c.isDigit = false) :
    parseExp (exponentText e ++ rest) = some (e, rest) := by
  unfold exponentText
  by_cases he : e < 0
  · simp only [he, if_true, List.cons_append, parseExp, parseExpDigits_toDigits true _ hr]
    rw [show -(e.natAbs : Int) = e by omega]
  · simp only [he, if_false, List.cons_append, parseExp, parseExpDigits_toDigits false _ hr]
    rw [show (e.natAbs : Int) = e by omega]
    simp

theorem parseExp_none {rest : List Char} (hr : NumberEnd rest) :
    parseExp rest = some (0, rest) := by
  cases rest with
  | nil => rfl
  | cons c cs =>
    obtain ⟨-, -, he, hE⟩ := hr c (by simp)
    unfold parseExp
    split <;> simp_all

theorem parseFrac_none {rest : List Char} (hr : ∀ c ∈ rest.head?, c ≠ '.') :
    parseFrac rest = some ([], rest) := by
  cases rest with
  | nil => rfl
  | cons c cs =>
    have := hr c (by simp)
    unfold parseFrac
    split <;> simp_all

theorem parseFrac_digits {f rest : List Char} (hf : f ≠ []) (hd : ∀ c ∈ f, c.isDigit)
    (hr : ∀ c ∈ rest.head?, c.isDigit = false) :
    parseFrac ('.' :: (f ++ rest)) = some (f, rest) := by
  simp only [parseFrac, span_digits hd hr, hf, if_false]

/-- The pieces of a number that a reader accepts: digits only, no superfluous leading zero. -/
structure NumberParts.WellFormed (p : NumberParts) : Prop where
  int_ne : p.int ≠ []
  int_digits : ∀ c ∈ p.int, c.isDigit
  int_head : p.int.head? = some '0' → p.int.length = 1
  frac_digits : ∀ c ∈ p.frac, c.isDigit

def NumberParts.value (p : NumberParts) (negative : Bool) : Decimal :=
  .ofScaled negative (Nat.ofDigitChars 10 (p.int ++ p.frac) 0) (p.exp.getD 0 - p.frac.length)

/-- **Reading written pieces gives the number they denote.** -/
theorem parseMagnitude_text (p : NumberParts) (hp : p.WellFormed) (negative : Bool)
    {rest : List Char} (hr : NumberEnd rest) :
    parseMagnitude negative (p.text ++ rest) = some (p.value negative, rest) := by
  obtain ⟨int, frac, exp⟩ := p
  obtain ⟨hne, hid, hhead, hfd⟩ := hp
  simp only at hne hid hhead hfd
  -- what follows the mantissa is read as the written exponent, and is no digit or point
  have hexp : ∃ tail, tail = (match exp with | none => [] | some e => exponentText e) ++ rest ∧
      parseExp tail = some (exp.getD 0, rest) ∧
      ∀ c ∈ tail.head?, c.isDigit = false ∧ c ≠ '.' := by
    refine ⟨_, rfl, ?_⟩
    cases exp with
    | none =>
      refine ⟨by simpa using parseExp_none hr, fun c hc => ?_⟩
      have := hr c (by simpa using hc)
      exact ⟨this.1, this.2.1⟩
    | some e =>
      refine ⟨by simpa using parseExp_text e fun c hc => (hr c hc).1, fun c hc => ?_⟩
      simp [exponentText] at hc
      subst hc
      decide
  obtain ⟨tail, htail, hread, hstop⟩ := hexp
  have hguard : ¬ (int = [] ∨ (int.head? = some '0' ∧ int.length ≠ 1)) := by
    rintro (h | ⟨h, h'⟩)
    · exact hne h
    · exact h' (hhead h)
  have htext : NumberParts.text ⟨int, frac, exp⟩ ++ rest =
      int ++ ((if frac = [] then [] else '.' :: frac) ++ tail) := by
    rw [htail]
    simp [NumberParts.text]
  rw [htext]
  unfold parseMagnitude
  by_cases hf : frac = []
  · subst hf
    rw [if_pos rfl, List.nil_append, span_digits hid fun c hc => (hstop c hc).1]
    simp only [hguard, if_false, parseFrac_none fun c hc => (hstop c hc).2, hread]
    rfl
  · have hdot : ∀ c ∈ (('.' :: frac) ++ tail).head?, c.isDigit = false := by
      intro c hc
      simp at hc
      subst hc
      decide
    rw [if_neg hf, span_digits hid hdot]
    simp only [hguard, if_false, List.cons_append,
      parseFrac_digits hf hfd fun c hc => (hstop c hc).1, hread]
    rfl

/-! ### The printed pieces denote the number -/

theorem isDigit_toDigits (n : Nat) : ∀ c ∈ Nat.toDigits 10 n, c.isDigit :=
  fun _ hc => Nat.isDigit_of_mem_toDigits (by omega) (by omega) hc

theorem isDigit_replicate (n : Nat) : ∀ c ∈ List.replicate n '0', c.isDigit := by
  intro c hc
  rw [List.eq_of_mem_replicate hc]
  decide

theorem toDigits_head_zero (n : Nat) (h : (Nat.toDigits 10 n).head? = some '0') : n = 0 := by
  induction n using Nat.strongRecOn with
  | _ n ih =>
    by_cases hn : n < 10
    · rw [Nat.toDigits_of_lt_base hn] at h
      simp only [List.head?_cons, Option.some.injEq] at h
      interval_cases n
      · rfl
      all_goals exact absurd h (by decide)
    · rw [Nat.toDigits_of_base_le (by omega) (by omega)] at h
      have hne : Nat.toDigits 10 (n / 10) ≠ [] := Nat.toDigits_ne_nil
      rw [List.head?_append, Option.or_of_isSome (by simp [hne])] at h
      have := ih (n / 10) (by omega) h
      omega

theorem ofDigitChars_zeros (k : Nat) (ds : List Char) :
    Nat.ofDigitChars 10 (List.replicate k '0' ++ ds) 0 = Nat.ofDigitChars 10 ds 0 := by
  rw [Nat.ofDigitChars_append, Nat.ofDigitChars_replicate_zero, mul_zero]

/-- **The pieces of a number denote it.** One case per layout: whole number with trailing
zeros, point inside the digits, leading zeros after the point, exponent form. -/
theorem Decimal.parts_value (d : Decimal) :
    d.parts.WellFormed ∧ d.parts.value d.negative = d := by
  have hds := isDigit_toDigits d.digits
  have hval : Nat.ofDigitChars 10 (Nat.toDigits 10 d.digits) 0 = d.digits :=
    Nat.ofDigitChars_toDigits (by omega) le_rfl
  have hhead : (Nat.toDigits 10 d.digits).head? = some '0' →
      (Nat.toDigits 10 d.digits).length = 1 ∧ d.exponent = 0 := by
    intro h
    have h0 := toDigits_head_zero _ h
    have hexp : d.exponent = 0 := by
      rcases d.normal with ⟨-, -, he⟩ | hm
      · exact he
      · exact absurd (by simp [h0]) hm
    exact ⟨by simp [h0], hexp⟩
  have hpos : 0 < (Nat.toDigits 10 d.digits).length := Nat.length_toDigits_pos
  have hnil : Nat.toDigits 10 d.digits ≠ [] := Nat.toDigits_ne_nil
  unfold Decimal.parts
  generalize Nat.toDigits 10 d.digits = ds at *
  unfold layout
  split
  · -- whole number: the exponent is the number of zeros appended
    next h =>
    refine ⟨⟨by simp [hnil], ?_, ?_, by simp⟩, ?_⟩
    · intro c hc
      rcases List.mem_append.mp hc with hc | hc
      · exact hds c hc
      · exact isDigit_replicate _ c hc
    · intro hh
      rw [List.head?_append, Option.or_of_isSome (by simpa using hnil)] at hh
      obtain ⟨h1, h2⟩ := hhead hh
      simp [h1, h2]
    · have he : ((↑ds.length + d.exponent - ↑ds.length : Int).toNat : Int) = d.exponent := by
        omega
      generalize (↑ds.length + d.exponent - ↑ds.length : Int).toNat = j at he
      simp only [NumberParts.value, List.append_nil, Nat.ofDigitChars_append, hval,
        Nat.ofDigitChars_replicate_zero, Option.getD_none, List.length_nil]
      have := d.ofScaled_shift j
      rwa [← he, sub_self] at this
  split
  · -- the point falls inside the digits
    next h1 h2 =>
    have hlen : (↑ds.length + d.exponent).toNat < ds.length := by omega
    have hpos' : 0 < (↑ds.length + d.exponent).toNat := by omega
    refine ⟨⟨?_, fun c hc => hds c (List.mem_of_mem_take hc), ?_,
      fun c hc => hds c (List.mem_of_mem_drop hc)⟩, ?_⟩
    · rw [ne_eq, List.take_eq_nil_iff, not_or]
      exact ⟨by omega, hnil⟩
    · intro hh
      rw [List.head?_take, if_neg (by omega)] at hh
      obtain ⟨h1, h2⟩ := hhead hh
      omega
    · have he : (0 : Int) - ((ds.drop (↑ds.length + d.exponent).toNat).length : Int)
          = d.exponent - (0 : Nat) := by
        rw [List.length_drop]
        omega
      simp only [NumberParts.value, List.take_append_drop, hval, Option.getD_none, he]
      simpa using d.ofScaled_shift 0
  split
  · -- leading zeros after the point
    next h1 h2 h3 =>
    refine ⟨⟨by simp, by simp, by simp, ?_⟩, ?_⟩
    · intro c hc
      rcases List.mem_append.mp hc with hc | hc
      · exact isDigit_replicate _ c hc
      · exact hds c hc
    · have he : (0 : Int)
          - ((List.replicate (-(↑ds.length + d.exponent)).toNat '0' ++ ds).length : Int)
          = d.exponent - (0 : Nat) := by
        simp only [List.length_append, List.length_replicate]
        omega
      have hz := ofDigitChars_zeros ((-(↑ds.length + d.exponent)).toNat + 1) ds
      rw [List.replicate_succ, hval] at hz
      simp only [NumberParts.value, List.cons_append, List.nil_append, Option.getD_none, he]
      rw [← List.cons_append, hz]
      simpa using d.ofScaled_shift 0
  · -- exponent form: one digit before the point
    next h1 h2 h3 =>
    refine ⟨⟨?_, fun c hc => hds c (List.mem_of_mem_take hc), ?_,
      fun c hc => hds c (List.mem_of_mem_drop hc)⟩, ?_⟩
    · rw [ne_eq, List.take_eq_nil_iff, not_or]
      exact ⟨by omega, hnil⟩
    · intro _
      simp only [List.length_take]
      omega
    · have he : ((↑ds.length + d.exponent - 1 : Int)) - ((ds.drop 1).length : Int)
          = d.exponent - (0 : Nat) := by
        rw [List.length_drop]
        omega
      simp only [NumberParts.value, List.take_append_drop, hval, Option.getD_some, he]
      simpa using d.ofScaled_shift 0

theorem NumberParts.text_head (p : NumberParts) (hp : p.WellFormed) (rest : List Char) :
    ∃ c cs, p.text ++ rest = c :: cs ∧ c.isDigit := by
  obtain ⟨c, cs, hc⟩ := List.exists_cons_of_ne_nil hp.int_ne
  have hdig : c.isDigit := hp.int_digits c (by simp [hc])
  simp only [NumberParts.text, hc, List.cons_append]
  exact ⟨c, _, rfl, hdig⟩

/-- **Printing then reading a number is the identity**, whatever follows it that cannot
continue a number. -/
theorem parseNumber_text (d : Decimal) {rest : List Char} (hr : NumberEnd rest) :
    parseNumber (d.text ++ rest) = some (d, rest) := by
  obtain ⟨hwf, hval⟩ := d.parts_value
  unfold Decimal.text
  cases hneg : d.negative with
  | true =>
    have h := parseMagnitude_text d.parts hwf true hr
    rw [← hneg, hval, hneg] at h
    simpa [parseNumber] using h
  | false =>
    obtain ⟨c, cs, hcs, hdig⟩ := d.parts.text_head hwf rest
    have h := parseMagnitude_text d.parts hwf false hr
    rw [← hneg, hval, hneg, hcs] at h
    simp only [Bool.false_eq_true, if_false, List.nil_append, hcs]
    unfold parseNumber
    split
    · next heq =>
      simp only [List.cons.injEq] at heq
      obtain ⟨rfl, -⟩ := heq
      exact absurd hdig (by decide)
    · exact h

end Json
