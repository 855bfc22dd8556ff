import ThreeXhaust.Lib.Json.RoundTrip

/-!
# Binary rounding of JSON numbers

`JSON.parse` reads a number as the nearest binary64, so that different texts may be the same
number and a large one is infinite. The magnitude of a finite binary64 is a whole number of units
of `2 ^ -1074`, with at most 53 significant bits; everything here is in such units.

* `round53` — a quotient to 53 significant bits, the even one of two.
* `shortest` — `Number::toString`: the shortest decimal that rounds back.
* `Decimal.rounded` — what `JSON.parse` makes of a number it reads.
-/

namespace Json

/-! ## Rounding to 53 bits -/

/-- The whole number nearest to `n / d`, the even one of two. -/
def roundEven (n d : Nat) : Nat :=
  if 2 * (n % d) < d ∨ (2 * (n % d) = d ∧ n / d % 2 = 0) then n / d else n / d + 1

/-- How far `n / d` is shifted right to have 53 bits. -/
def excess (n d : Nat) : Nat := Nat.log2 (n / d) - 52

/-- `n / d` to 53 significant bits. -/
def round53 (n d : Nat) : Nat := roundEven n (d * 2 ^ excess n d) * 2 ^ excess n d

variable {k : Nat}

theorem roundEven_scale (hk : 0 < k) (n d : Nat) : roundEven (n * k) (d * k) = roundEven n d := by
  have hmod : n * k % (d * k) = n % d * k := Nat.mul_mod_mul_right k n d
  have hdiv : n * k / (d * k) = n / d := Nat.mul_div_mul_right n d hk
  have hlt : 2 * (n % d * k) < d * k ↔ 2 * (n % d) < d := by
    rw [← mul_assoc]
    exact Nat.mul_lt_mul_right hk
  have heq : 2 * (n % d * k) = d * k ↔ 2 * (n % d) = d := by
    rw [← mul_assoc]
    exact Nat.mul_left_inj (Nat.pos_iff_ne_zero.mp hk)
  simp only [roundEven, hmod, hdiv, hlt, heq]

theorem round53_scale (hk : 0 < k) (n d : Nat) : round53 (n * k) (d * k) = round53 n d := by
  have hexcess : excess (n * k) (d * k) = excess n d := by
    rw [excess, Nat.mul_div_mul_right n d hk, excess]
  rw [round53, hexcess, Nat.mul_right_comm, roundEven_scale hk, round53]

theorem roundEven_mul (n : Nat) {d : Nat} (hd : 0 < d) : roundEven (n * d) d = n := by
  simp [roundEven, Nat.mul_div_cancel n hd, hd]

theorem roundEven_le (n d : Nat) : n / d ≤ roundEven n d ∧ roundEven n d ≤ n / d + 1 := by
  unfold roundEven
  split <;> omega

variable {u : Nat}

theorem round53_of_dvd (h : 2 ^ (Nat.log2 u - 52) ∣ u) : round53 u 1 = u := by
  obtain ⟨m, hm⟩ := h
  have hpos : 0 < 2 ^ (Nat.log2 u - 52) := Nat.two_pow_pos _
  have hexcess : excess u 1 = Nat.log2 u - 52 := by rw [excess, Nat.div_one]
  rw [round53, hexcess, one_mul]
  conv_lhs => rw [show roundEven u (2 ^ (Nat.log2 u - 52)) =
    roundEven (m * 2 ^ (Nat.log2 u - 52)) (2 ^ (Nat.log2 u - 52)) by rw [mul_comm m, ← hm]]
  rw [roundEven_mul m hpos, mul_comm, ← hm]

theorem dvd_round53 (n d : Nat) : 2 ^ (Nat.log2 (round53 n d) - 52) ∣ round53 n d := by
  have hround := roundEven_le n (d * 2 ^ excess n d)
  rw [← Nat.div_div_eq_div_mul] at hround
  -- the shifted quotient has at most 53 bits, and so has what it rounds to, unless that is 2 ^ 53
  have hquot : n / d / 2 ^ excess n d < 2 ^ 53 := by
    rw [Nat.div_lt_iff_lt_mul (Nat.two_pow_pos _), ← pow_add]
    refine Nat.lt_of_lt_of_le Nat.lt_log2_self (Nat.pow_le_pow_right (by omega) ?_)
    simp only [excess]
    omega
  unfold round53
  generalize roundEven n (d * 2 ^ excess n d) = r at hround
  generalize excess n d = s at *
  have hr : r ≤ 2 ^ 53 := by omega
  rcases Nat.lt_or_eq_of_le hr with hlt | rfl
  · refine Nat.dvd_trans (Nat.pow_dvd_pow 2 ?_) (Nat.dvd_mul_left _ _)
    by_cases h0 : r * 2 ^ s = 0
    · rw [h0]
      simp
    · have hlog : Nat.log2 (r * 2 ^ s) < 53 + s := by
        rw [Nat.log2_lt h0, pow_add]
        exact Nat.mul_lt_mul_of_pos_right hlt (Nat.two_pow_pos _)
      omega
  · rw [← pow_add, Nat.log2_two_pow]
    exact Nat.pow_dvd_pow 2 (by omega)

theorem round53_round53 (n d : Nat) : round53 (round53 n d) 1 = round53 n d :=
  round53_of_dvd (dvd_round53 n d)

/-! ## Decimals in units -/

@[irreducible] def unitPlaces : Nat := 1074

def one : Nat := 2 ^ unitPlaces

theorem one_pos : 0 < one := Nat.two_pow_pos _

/-- `m · 10 ^ e` in units, to 53 bits. -/
def unitsOf (m : Nat) (e : Int) : Nat := round53 (m * 10 ^ e.toNat * one) (10 ^ (-e).toNat)

def Decimal.units (d : Decimal) : Nat := unitsOf d.digits d.exponent

theorem unitsOf_shift (m : Nat) (e : Int) : unitsOf (m * 10) e = unitsOf m (e + 1) := by
  unfold unitsOf
  by_cases he : 0 ≤ e
  · rw [show (-e).toNat = 0 by omega, show (-(e + 1)).toNat = 0 by omega,
      show (e + 1).toNat = e.toNat + 1 by omega, pow_succ]
    congr 1
    ring
  · rw [show e.toNat = 0 by omega, show (e + 1).toNat = 0 by omega,
      show (-e).toNat = (-(e + 1)).toNat + 1 by omega, pow_succ,
      show m * 10 * 10 ^ 0 * one = m * 10 ^ 0 * one * 10 by ring]
    exact round53_scale (by omega) _ _

theorem unitsOf_stripZeros (fuel m : Nat) (e : Int) :
    unitsOf (stripZeros fuel m e).1 (stripZeros fuel m e).2 = unitsOf m e := by
  induction fuel generalizing m e with
  | zero => rfl
  | succ fuel ih =>
    rw [stripZeros]
    split
    · next h => rw [ih, ← unitsOf_shift, Nat.div_mul_cancel (Nat.dvd_of_mod_eq_zero h)]
    · rfl

theorem unitsOf_zero (e : Int) : unitsOf 0 e = 0 := by
  simp [unitsOf, round53, excess, roundEven]

theorem Decimal.units_ofScaled (negative : Bool) (m : Nat) (e : Int) :
    (Decimal.ofScaled negative m e).units = unitsOf m e := by
  by_cases hm : m = 0
  · subst hm
    simp [Decimal.ofScaled, Decimal.units, unitsOf_zero]
  · simp only [Decimal.ofScaled, hm, dif_neg, not_false_eq_true, Decimal.units]
    exact unitsOf_stripZeros m m e

theorem Decimal.negative_ofScaled {negative : Bool} {m : Nat} {e : Int}
    (h : (Decimal.ofScaled negative m e).units ≠ 0) :
    (Decimal.ofScaled negative m e).negative = negative := by
  have hm : m ≠ 0 := by
    rintro rfl
    exact h (by rw [Decimal.units_ofScaled, unitsOf_zero])
  simp [Decimal.ofScaled, hm]

/-! ## `Number::toString` -/

/-- The place before the first digit of `u` units, found on a scale where every number is whole. -/
def firstPlace (u : Nat) : Int :=
  let scale : Nat := 400
  (Nat.toDigits 10 (u * 10 ^ scale / one)).length - scale

/-- The decimals of `k` digits around `u` units, the nearest first. -/
def around (negative : Bool) (u k : Nat) : List Decimal :=
  let e : Int := firstPlace u - k
  let n := u * 10 ^ (-e).toNat
  let d := one * 10 ^ e.toNat
  [roundEven n d, n / d, n / d + 1].map fun m => .ofScaled negative m e

def allDigits (negative : Bool) (u : Nat) : Decimal :=
  .ofScaled negative (u * 5 ^ unitPlaces) (-unitPlaces)

/-- The shortest decimal that rounds to `u` units. Seventeen digits are always enough. -/
def shortest (negative : Bool) (u : Nat) : Decimal :=
  (((List.range 17).flatMap fun k => around negative u (k + 1)).find? (·.units = u)).getD
    (allDigits negative u)

theorem units_allDigits (negative : Bool) (hu : round53 u 1 = u) :
    (allDigits negative u).units = u := by
  have hten : (10 : Nat) ^ unitPlaces = 5 ^ unitPlaces * one := by
    rw [one, ← mul_pow, show 5 * 2 = 10 from rfl]
  have hscale := round53_scale (k := 5 ^ unitPlaces * one)
    (Nat.mul_pos (Nat.pow_pos (by omega)) one_pos) u 1
  rw [one_mul, hu, ← mul_assoc] at hscale
  rw [allDigits, Decimal.units_ofScaled, unitsOf, neg_neg, Int.toNat_natCast, hten,
    show (-(unitPlaces : Int)).toNat = 0 by omega, pow_zero, mul_one, hscale]

theorem find?_getD_cases {α : Type} (p : α → Bool) (xs : List α) (a : α) :
    (xs.find? p).getD a = a ∨ ((xs.find? p).getD a ∈ xs ∧ p ((xs.find? p).getD a) = true) := by
  cases h : xs.find? p with
  | none => exact .inl rfl
  | some x => exact .inr ⟨List.mem_of_find?_eq_some h, List.find?_some h⟩

theorem shortest_eq (negative : Bool) (u : Nat) :
    ∃ m e, shortest negative u = .ofScaled negative m e ∧
      (round53 u 1 = u → (shortest negative u).units = u) := by
  rcases find?_getD_cases (fun d : Decimal => decide (d.units = u))
    ((List.range 17).flatMap fun k => around negative u (k + 1)) (allDigits negative u) with
    h | ⟨hmem, hunits⟩
  · rw [shortest, h]
    refine ⟨u * 5 ^ unitPlaces, -unitPlaces, ?_, units_allDigits negative⟩
    rw [allDigits]
  · rw [← shortest] at hmem hunits
    obtain ⟨k, -, hd⟩ := List.mem_flatMap.mp hmem
    obtain ⟨m, -, heq⟩ := List.mem_map.mp hd
    exact ⟨m, _, heq.symm, fun _ => of_decide_eq_true hunits⟩

/-- **The printed decimal rounds back.** -/
theorem units_shortest (negative : Bool) (hu : round53 u 1 = u) :
    (shortest negative u).units = u := by
  obtain ⟨m, e, -, h⟩ := shortest_eq negative u
  exact h hu

theorem negative_shortest (negative : Bool) (hu : round53 u 1 = u) (h0 : u ≠ 0) :
    (shortest negative u).negative = negative := by
  obtain ⟨m, e, heq, h⟩ := shortest_eq negative u
  have hunits := h hu
  rw [heq] at hunits ⊢
  exact Decimal.negative_ofScaled (hunits ▸ h0)

theorem shortest_zero (negative : Bool) : shortest negative 0 = .ofNat 0 := by
  have haround : ∀ k, (around negative 0 k).head? = some (.ofNat 0) := by
    intro k
    simp [around, roundEven, Decimal.ofScaled, Decimal.ofNat, one_pos]
  obtain ⟨others, hfirst⟩ := List.head?_eq_some_iff.mp (haround 1)
  have hzero : (Decimal.ofNat 0).units = 0 := by
    rw [Decimal.ofNat, Decimal.units_ofScaled, unitsOf_zero]
  have hrange : List.range 17 = 0 :: (List.range 16).map Nat.succ := List.range_succ_eq_map
  rw [shortest, hrange, List.flatMap_cons, zero_add, hfirst, List.cons_append,
    List.find?_cons_of_pos (by simpa using hzero)]
  rfl

/-! ## What `JSON.parse` reads -/

/-- From `2 ^ maxExponent` on, a magnitude is infinite. -/
@[irreducible] def maxExponent : Nat := 1024

theorem le_maxExponent : 53 ≤ maxExponent := by
  unfold maxExponent
  omega

def Decimal.Overflows (d : Decimal) : Prop := 2 ^ maxExponent * one ≤ d.units

instance (d : Decimal) : Decidable d.Overflows := inferInstanceAs (Decidable (_ ≤ _))

def Decimal.rounded (d : Decimal) : Number :=
  if d.Overflows then .infinity d.negative else .finite (shortest d.negative d.units)

@[grind =] def Number.rounded : Number → Number
  | .finite d => d.rounded
  | n => n

/-- **A number that was read is read back as it is.** -/
theorem Decimal.rounded_rounded {d r : Decimal} (h : d.rounded = .finite r) :
    r.rounded = .finite r := by
  unfold Decimal.rounded at h
  split at h
  · cases h
  next hfinite =>
  cases h
  have hfix : round53 d.units 1 = d.units := round53_round53 _ _
  have hunits : (shortest d.negative d.units).units = d.units := units_shortest _ hfix
  unfold Decimal.rounded
  rw [if_neg (by rwa [Decimal.Overflows, hunits]), hunits]
  by_cases h0 : d.units = 0
  · rw [h0, shortest_zero, shortest_zero]
  · rw [negative_shortest _ hfix h0]

variable {n : Nat}

theorem log2_mul_two_pow_lt (hn : n < 2 ^ 53) : 2 ^ (Nat.log2 (n * 2 ^ k) - 52) ∣ n * 2 ^ k := by
  by_cases h0 : n = 0
  · simp [h0]
  · refine Nat.dvd_trans (Nat.pow_dvd_pow 2 ?_) (Nat.dvd_mul_left (2 ^ k) n)
    have hne : n * 2 ^ k ≠ 0 := Nat.mul_ne_zero h0 (Nat.two_pow_pos k).ne'
    have hlog : Nat.log2 (n * 2 ^ k) < 53 + k := by
      rw [Nat.log2_lt hne, pow_add]
      exact Nat.mul_lt_mul_of_pos_right hn (Nat.two_pow_pos k)
    omega

theorem Decimal.units_ofNat (hn : n < 2 ^ 53) : (Decimal.ofNat n).units = n * one := by
  rw [Decimal.ofNat, Decimal.units_ofScaled, unitsOf, Int.toNat_zero, neg_zero, Int.toNat_zero,
    pow_zero, mul_one]
  exact round53_of_dvd (log2_mul_two_pow_lt hn)

theorem Decimal.negative_ofNat (n : Nat) : (Decimal.ofNat n).negative = false := by
  rw [Decimal.ofNat, Decimal.ofScaled]
  split <;> rfl

theorem Decimal.not_overflows_ofNat (hn : n < 2 ^ 53) : ¬ (Decimal.ofNat n).Overflows := by
  rw [Decimal.Overflows, Decimal.units_ofNat hn, not_le]
  have hpow := Nat.pow_le_pow_right (n := 2) (by omega) le_maxExponent
  exact Nat.mul_lt_mul_of_pos_right (Nat.lt_of_lt_of_le hn hpow) one_pos

end Json
