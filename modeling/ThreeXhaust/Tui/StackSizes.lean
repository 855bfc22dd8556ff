import ThreeXhaust.Lib.Json.Double
import Mathlib.Data.List.Forall2
import Mathlib.Algebra.Order.BigOperators.Group.List
import Mathlib.Algebra.Order.Ring.Nat

/-!
# The sizes of a stack

`allocateStackSizes` of `tui/src/components/stack.ts`: entries start at their basis and grow or
shrink by their weights until the available cells are used up.

Numbers are binary64, and whole here: each sum, difference and product is rounded. What overflows to
`Infinity` is not modelled; `Exact` shuts it out, with every sum that rounding changes.

* `Spread` — what a part of the distribution does: cells go to entries, and none are lost.
* **`allocateStackSizes_fills`** — the sizes fill the available cells where the numbers are safe integers.
* **`allocateStackSizes_overruns`** — past these they need not.
-/

namespace ThreeXhaust.Tui.Stack

/-- `Number.MAX_SAFE_INTEGER` -/
def maxSafeInteger : Nat := 2 ^ 53 - 1

/-- A whole number as a binary64 has it. -/
def binary64 (n : Nat) : Nat := Json.round53 n 1

theorem binary64_of_le {n : Nat} (h : n ≤ maxSafeInteger) : binary64 n = n := by
  refine Json.round53_of_dvd ?_
  rcases Nat.eq_zero_or_pos n with rfl | hpos
  · exact Nat.dvd_zero _
  · have hlog : Nat.log2 n < 53 :=
      (Nat.log2_lt (Nat.ne_of_gt hpos)).mpr (Nat.lt_of_le_of_lt h (by decide))
    rw [Nat.sub_eq_zero_of_le (by omega)]
    exact Nat.one_dvd n

/-- `normalizeSize`; a value that is not finite is `none`, like one that is not there. -/
def normalizeSize (value : Option Rat) (fallback : Nat) : Nat :=
  match value with
  | none => fallback
  | some value => value.floor.toNat

/-- The sizes of an entry. A `basis` of `none` is `"auto"`. -/
structure StackLayoutEntry where
  basis : Option Rat
  grow : Option Nat
  shrink : Option Nat
  minSize : Option Nat
  maxSize : Option Nat

/-- `Stack.addChild`: an option that is given is normalised. -/
def addChild (basis : Option Rat) (grow shrink minSize maxSize : Option (Option Rat)) :
    StackLayoutEntry where
  basis
  grow := grow.map (normalizeSize · 0)
  shrink := shrink.map (normalizeSize · 1)
  minSize := minSize.map (normalizeSize · 0)
  maxSize := maxSize.map (normalizeSize · maxSafeInteger)

namespace StackLayoutEntry

def min (entry : StackLayoutEntry) : Nat := entry.minSize.getD 0

def max (entry : StackLayoutEntry) : Nat := entry.maxSize.getD maxSafeInteger

def growth (entry : StackLayoutEntry) : Nat := entry.grow.getD 0

def shrinkage (entry : StackLayoutEntry) : Nat := entry.shrink.getD 1

end StackLayoutEntry

def clampSize (size : Rat) (entry : StackLayoutEntry) : Nat :=
  let lower := entry.min
  let upper := max lower entry.max
  max lower (min upper size.floor.toNat)

inductive Mode where
  | grow
  | shrink
deriving DecidableEq

structure Sized where
  entry : StackLayoutEntry
  size : Nat

namespace Sized

def isCandidate (mode : Mode) (s : Sized) : Bool :=
  match mode with
  | .grow => 0 < s.entry.growth && s.size < s.entry.max
  | .shrink => 0 < s.entry.shrinkage && s.entry.min < s.size

def weight (mode : Mode) (s : Sized) : Nat :=
  match mode with
  | .grow => s.entry.growth
  | .shrink => binary64 (s.entry.shrinkage * max 1 s.size)

def capacity (mode : Mode) (s : Sized) : Nat :=
  match mode with
  | .grow => binary64 (s.entry.max - s.size)
  | .shrink => binary64 (s.size - s.entry.min)

def moved (mode : Mode) (delta : Nat) (s : Sized) : Sized :=
  match mode with
  | .grow => { s with size := binary64 (s.size + delta) }
  | .shrink => { s with size := binary64 (s.size - delta) }

end Sized

/-- `Math.floor((remaining * weight) / totalWeight)`: the product and the quotient are rounded. -/
def share (remaining weight totalWeight : Nat) : Nat :=
  Json.round53 (binary64 (remaining * weight) * Json.one) totalWeight / Json.one

/-- One round over the candidates: what remains, and what was distributed. No entry is visited twice, so
it is a candidate with the size that it had before the round. -/
@[grind =]
def pass (mode : Mode) (totalWeight : Nat) : Nat → List Sized → Nat × Nat × List Sized
  | remaining, [] => (remaining, 0, [])
  | remaining, s :: rest =>
    if s.isCandidate mode && 0 < remaining then
      let proposed := max 1 (share remaining (s.weight mode) totalWeight)
      let delta := min (min remaining proposed) (s.capacity mode)
      let (remaining, distributed, rest) := pass mode totalWeight (binary64 (remaining - delta)) rest
      (remaining, delta + distributed, s.moved mode delta :: rest)
    else
      let (remaining, distributed, rest) := pass mode totalWeight remaining rest
      (remaining, distributed, s :: rest)

/-- `reduce((sum, size) => sum + size, 0)`. -/
def sum64 (numbers : List Nat) : Nat := numbers.foldl (fun sum number => binary64 (sum + number)) 0

/-- The loop, for so many rounds at most. -/
def distribute (mode : Mode) : Nat → Nat → List Sized → Option (List Sized)
  | _, 0, sizes => some sizes
  | 0, _ + 1, _ => none
  | rounds + 1, remaining, sizes =>
    let candidates := sizes.filter (·.isCandidate mode)
    if candidates.isEmpty then some sizes
    else
      let totalWeight := sum64 (candidates.map (·.weight mode))
      let (remaining, distributed, sizes) := pass mode totalWeight remaining sizes
      if distributed = 0 then some sizes else distribute mode rounds remaining sizes

def baseSizes (entries : List StackLayoutEntry) (intrinsicSizes : List Rat) : List Sized :=
  entries.mapIdx fun index entry =>
    ⟨entry, clampSize (entry.basis.getD (intrinsicSizes[index]?.getD 0)) entry⟩

def gaps (entries : List StackLayoutEntry) (gap : Nat) : Nat := (entries.length - 1) * gap

def contentSize (entries : List StackLayoutEntry) (availableSize : Rat) (gap : Nat) : Nat :=
  binary64 (availableSize.floor - binary64 (gaps entries gap)).toNat

def allocateStackSizes (rounds : Nat) (entries : List StackLayoutEntry) (intrinsicSizes : List Rat)
    (availableSize : Option Rat) (gap : Nat) : Option (List Sized) :=
  let sizes := baseSizes entries intrinsicSizes
  match availableSize with
  | none => some sizes
  | some availableSize =>
    let contentSize := contentSize entries availableSize gap
    let total := sum64 (sizes.map (·.size))
    if total < contentSize then distribute .grow rounds (binary64 (contentSize - total)) sizes
    else if total > contentSize then distribute .shrink rounds (binary64 (total - contentSize)) sizes
    else some sizes

/-! ## Spreading cells -/

/-- What the sizes are together. -/
def total (sizes : List Sized) : Nat := (sizes.map (·.size)).sum

theorem foldl_sum64 {numbers : List Nat} {sum : Nat} (h : sum + numbers.sum ≤ maxSafeInteger) :
    numbers.foldl (fun sum number => binary64 (sum + number)) sum = sum + numbers.sum := by
  induction numbers generalizing sum with
  | nil => rfl
  | cons number rest ih =>
    rw [List.sum_cons, ← Nat.add_assoc] at h
    rw [List.foldl_cons, binary64_of_le (by omega), ih h, List.sum_cons, Nat.add_assoc]

theorem sum64_eq {sizes : List Sized} (h : total sizes ≤ maxSafeInteger) :
    sum64 (sizes.map (·.size)) = total sizes := by
  rw [sum64, foldl_sum64 (by rwa [Nat.zero_add]), Nat.zero_add]
  rfl

/-- An entry's size is within its bounds, and these are safe integers. -/
def Sized.Fits (s : Sized) : Prop :=
  s.entry.min ≤ s.size ∧ s.size ≤ s.entry.max ∧ s.entry.max ≤ maxSafeInteger

structure Sized.Moved (mode : Mode) (s t : Sized) : Prop where
  entry : t.entry = s.entry
  grown : mode = .grow → s.size ≤ t.size
  shrunk : mode = .shrink → t.size ≤ s.size

theorem Sized.Moved.refl (mode : Mode) (s : Sized) : s.Moved mode s :=
  ⟨rfl, fun _ => Nat.le_refl _, fun _ => Nat.le_refl _⟩

theorem Sized.Moved.trans {mode : Mode} {s t r : Sized} (h : s.Moved mode t) (h' : t.Moved mode r) :
    s.Moved mode r :=
  ⟨h'.entry.trans h.entry, fun hm => (h.grown hm).trans (h'.grown hm),
    fun hm => (h'.shrunk hm).trans (h.shrunk hm)⟩

theorem moved_trans {mode : Mode} {a b c : List Sized} (h : List.Forall₂ (Sized.Moved mode) a b)
    (h' : List.Forall₂ (Sized.Moved mode) b c) : List.Forall₂ (Sized.Moved mode) a c := by
  induction h generalizing c with
  | nil => exact h'
  | cons hs _ ih =>
    cases h' with
    | cons hs' h' => exact .cons (hs.trans hs') (ih h')

/-- `amount` cells are spread over the entries, in the direction of the mode, and each stays within
its bounds. -/
structure Spread (mode : Mode) (amount : Nat) (before after : List Sized) : Prop where
  moved : List.Forall₂ (Sized.Moved mode) before after
  fits : ∀ s ∈ after, s.Fits
  grown : mode = .grow → total after = total before + amount
  shrunk : mode = .shrink → total before = total after + amount

variable {mode : Mode} {sizes : List Sized}

theorem Spread.refl (h : ∀ s ∈ sizes, s.Fits) : Spread mode 0 sizes sizes :=
  ⟨List.forall₂_same.mpr fun s _ => .refl mode s, h, fun _ => rfl, fun _ => rfl⟩

theorem Spread.trans {a b : Nat} {before between after : List Sized}
    (h : Spread mode a before between) (h' : Spread mode b between after) :
    Spread mode (a + b) before after where
  moved := moved_trans h.moved h'.moved
  fits := h'.fits
  grown hm := by rw [h'.grown hm, h.grown hm, Nat.add_assoc]
  shrunk hm := by rw [h.shrunk hm, h'.shrunk hm, Nat.add_assoc, Nat.add_comm b]

theorem Spread.cons {a b : Nat} {s : Sized} {rest after : List Sized} (hs : s.Fits)
    (hroom : a ≤ s.capacity mode) (h : Spread mode b rest after) :
    Spread mode (a + b) (s :: rest) (s.moved mode a :: after) := by
  obtain ⟨hmin, hmax, hsafe⟩ := hs
  cases mode with
  | grow =>
    have hroom : a ≤ binary64 (s.entry.max - s.size) := hroom
    rw [binary64_of_le (by omega)] at hroom
    have hmoved : s.moved .grow a = { s with size := s.size + a } := by
      rw [Sized.moved, binary64_of_le (by omega)]
    rw [hmoved]
    refine ⟨.cons ⟨rfl, fun _ => Nat.le_add_right _ _, nofun⟩ h.moved,
      List.forall_mem_cons.mpr ⟨⟨?_, ?_, hsafe⟩, h.fits⟩, fun _ => ?_, nofun⟩
    · show s.entry.min ≤ s.size + a
      omega
    · show s.size + a ≤ s.entry.max
      omega
    · have hrest := h.grown rfl
      show s.size + a + total after = s.size + total rest + (a + b)
      omega
  | shrink =>
    have hroom : a ≤ binary64 (s.size - s.entry.min) := hroom
    rw [binary64_of_le (by omega)] at hroom
    have hmoved : s.moved .shrink a = { s with size := s.size - a } := by
      rw [Sized.moved, binary64_of_le (by omega)]
    rw [hmoved]
    refine ⟨.cons ⟨rfl, nofun, fun _ => Nat.sub_le _ _⟩ h.moved,
      List.forall_mem_cons.mpr ⟨⟨?_, ?_, hsafe⟩, h.fits⟩, nofun, fun _ => ?_⟩
    · show s.entry.min ≤ s.size - a
      omega
    · show s.size - a ≤ s.entry.max
      omega
    · have hrest := h.shrunk rfl
      show s.size + total rest = s.size - a + total after + (a + b)
      omega

theorem moved_zero {s : Sized} (hs : s.Fits) : s.moved mode 0 = s := by
  obtain ⟨-, hmax, hsafe⟩ := hs
  have hsize : binary64 s.size = s.size := binary64_of_le (by omega)
  cases mode <;> simp [Sized.moved, hsize]

theorem capacity_pos {s : Sized} (hs : s.Fits) (h : s.isCandidate mode = true) :
    0 < s.capacity mode := by
  obtain ⟨-, hmax, hsafe⟩ := hs
  cases mode with
  | grow =>
    simp only [Sized.isCandidate, Bool.and_eq_true, decide_eq_true_eq] at h
    rw [Sized.capacity, binary64_of_le (by omega)]
    exact Nat.sub_pos_of_lt h.2
  | shrink =>
    simp only [Sized.isCandidate, Bool.and_eq_true, decide_eq_true_eq] at h
    rw [Sized.capacity, binary64_of_le (by omega)]
    exact Nat.sub_pos_of_lt h.2

/-- **A round** spreads what no longer remains, and that is something when there is a candidate. -/
theorem pass_spread (totalWeight : Nat) {remaining : Nat} (h : ∀ s ∈ sizes, s.Fits)
    (hsafe : remaining ≤ maxSafeInteger) :
    let round := pass mode totalWeight remaining sizes
    round.1 + round.2.1 = remaining ∧ Spread mode round.2.1 sizes round.2.2
      ∧ (0 < remaining → (∃ s ∈ sizes, s.isCandidate mode = true) → 0 < round.2.1) := by
  induction sizes generalizing remaining with
  | nil => exact ⟨rfl, .refl h, fun _ ⟨_, hs, _⟩ => nomatch hs⟩
  | cons s rest ih =>
    obtain ⟨hs, hrest⟩ := List.forall_mem_cons.mp h
    rw [pass]
    split
    · next hc =>
      rw [Bool.and_eq_true, decide_eq_true_iff] at hc
      have hroom := capacity_pos hs hc.1
      dsimp only
      generalize hdelta : min (min remaining (max 1 (share remaining (s.weight mode) totalWeight)))
        (s.capacity mode) = delta
      have hleft : remaining - delta ≤ maxSafeInteger := by omega
      have hround := ih hrest hleft
      rw [binary64_of_le hleft]
      generalize pass mode totalWeight (remaining - delta) rest = round at hround ⊢
      obtain ⟨hsum, hspread, -⟩ := hround
      have hdelta' : delta ≤ remaining ∧ delta ≤ s.capacity mode ∧ 0 < delta := by omega
      refine ⟨?_, hspread.cons hs hdelta'.2.1, fun _ _ => Nat.add_pos_left hdelta'.2.2 _⟩
      show round.1 + (delta + round.2.1) = remaining
      omega
    · next hc =>
      obtain ⟨hsum, hspread, hless⟩ := ih hrest hsafe
      refine ⟨hsum, ?_, fun hpos hsome => hless hpos ?_⟩
      · have hcons := hspread.cons hs (Nat.zero_le _)
        rwa [moved_zero hs, Nat.zero_add] at hcons
      · -- the entry itself is no candidate
        obtain ⟨t, ht, hcandidate⟩ := hsome
        rcases List.mem_cons.mp ht with rfl | ht
        · exact absurd (Bool.and_eq_true_iff.mpr ⟨hcandidate, decide_eq_true hpos⟩) hc
        · exact ⟨t, ht, hcandidate⟩

/-- **The loop** ends, and spreads everything or stops where no candidate is left. -/
theorem distribute_spread {remaining : Nat} (h : ∀ s ∈ sizes, s.Fits)
    (hsafe : remaining ≤ maxSafeInteger) :
    ∃ after, (∀ rounds ≥ remaining, distribute mode rounds remaining sizes = some after) ∧
      ∃ amount ≤ remaining, Spread mode amount sizes after
        ∧ (amount = remaining ∨ ∀ s ∈ after, s.isCandidate mode = false) := by
  induction remaining using Nat.strongRecOn generalizing sizes with
  | ind remaining ih =>
    cases remaining with
    | zero =>
      exact ⟨sizes, fun rounds _ => by rw [distribute], 0, Nat.le_refl _, .refl h, .inl rfl⟩
    | succ n =>
      by_cases hnone : (sizes.filter (·.isCandidate mode)).isEmpty = true
      · refine ⟨sizes, fun rounds hrounds => ?_, 0, Nat.zero_le _, .refl h, .inr fun s hs => ?_⟩
        · obtain ⟨rounds, rfl⟩ := Nat.exists_eq_succ_of_ne_zero (Nat.ne_zero_of_lt hrounds)
          rw [distribute, if_pos hnone]
          exact Nat.succ_ne_zero n
        · rw [List.isEmpty_iff, List.filter_eq_nil_iff] at hnone
          exact Bool.eq_false_iff.mpr (hnone s hs)
      · have hpass := @pass_spread mode _
          (sum64 ((sizes.filter (·.isCandidate mode)).map (·.weight mode))) _ h hsafe
        generalize hround : pass mode
          (sum64 ((sizes.filter (·.isCandidate mode)).map (·.weight mode))) (n + 1) sizes = round
          at hpass
        obtain ⟨hsum, hspread, hless⟩ := hpass
        -- a round with a candidate spreads something
        have hsome : 0 < round.2.1 := hless (Nat.succ_pos n) (by
          by_contra hno
          refine hnone (List.isEmpty_iff.mpr (List.filter_eq_nil_iff.mpr fun s hs hc => ?_))
          exact hno ⟨s, hs, hc⟩)
        have hleft : round.1 < n + 1 ∧ round.1 ≤ maxSafeInteger := by omega
        obtain ⟨after, hafter, others, hle, hothers, hend⟩ :=
          ih round.1 hleft.1 hspread.fits hleft.2
        refine ⟨after, fun rounds hrounds => ?_, round.2.1 + others, by omega,
          hspread.trans hothers, hend.imp_left fun heq => by omega⟩
        obtain ⟨rounds, rfl⟩ := Nat.exists_eq_succ_of_ne_zero (Nat.ne_zero_of_lt hrounds)
        rw [distribute, if_neg hnone]
        · dsimp only
          rw [hround, if_neg (Nat.ne_of_gt hsome)]
          exact hafter rounds (by omega)
        · exact Nat.succ_ne_zero n

/-! ## The allocation -/

/-- Every number that the allocation computes with is a safe integer, so that none is rounded and no
share is infinite or not a number. -/
structure Exact (entries : List StackLayoutEntry) (intrinsicSizes : List Rat)
    (availableSize : Option Rat) (gap : Nat) : Prop where
  maxSizes : ∀ entry ∈ entries, entry.max ≤ maxSafeInteger
  sizes : total (baseSizes entries intrinsicSizes) ≤ maxSafeInteger
  weights : ∀ mode, ((baseSizes entries intrinsicSizes).map (·.weight mode)).sum ≤ maxSafeInteger
  gaps : gaps entries gap ≤ maxSafeInteger
  available : ∀ available ∈ availableSize, available.floor ≤ maxSafeInteger

theorem clampSize_fits (size : Rat) {entry : StackLayoutEntry} (h : entry.min ≤ entry.max)
    (hsafe : entry.max ≤ maxSafeInteger) : (⟨entry, clampSize size entry⟩ : Sized).Fits := by
  show entry.min ≤ max _ _ ∧ max _ _ ≤ entry.max ∧ entry.max ≤ maxSafeInteger
  omega

theorem contentSize_eq {entries : List StackLayoutEntry} {available : Rat} {gap : Nat}
    (hgaps : gaps entries gap ≤ maxSafeInteger) (havailable : available.floor ≤ maxSafeInteger) :
    contentSize entries available gap = (available.floor - gaps entries gap).toNat
      ∧ contentSize entries available gap ≤ maxSafeInteger := by
  have hle : (available.floor - gaps entries gap).toNat ≤ maxSafeInteger := by omega
  rw [contentSize, binary64_of_le hgaps, binary64_of_le hle]
  exact ⟨rfl, hle⟩

section Allocation

variable {entries : List StackLayoutEntry} (intrinsicSizes : List Rat)

theorem baseSizes_entries : (baseSizes entries intrinsicSizes).map (·.entry) = entries := by
  apply List.ext_getElem
  · rw [List.length_map, baseSizes, List.length_mapIdx]
  · intro index _ _
    simp only [baseSizes, List.getElem_map, List.getElem_mapIdx]

theorem baseSizes_fits (h : ∀ entry ∈ entries, entry.min ≤ entry.max)
    (hsafe : ∀ entry ∈ entries, entry.max ≤ maxSafeInteger) :
    ∀ s ∈ baseSizes entries intrinsicSizes, s.Fits := by
  intro s hs
  obtain ⟨index, hindex, rfl⟩ := List.mem_mapIdx.mp hs
  exact clampSize_fits _ (h _ (List.getElem_mem hindex)) (hsafe _ (List.getElem_mem hindex))

end Allocation

theorem moved_entries {before after : List Sized} (h : List.Forall₂ (Sized.Moved mode) before after) :
    after.map (·.entry) = before.map (·.entry) := by
  induction h with
  | nil => rfl
  | cons hs _ ih => rw [List.map_cons, List.map_cons, hs.entry, ih]

theorem filled_of_grow {available : Int} {gaps : Nat} (hfits : ∀ s ∈ sizes, s.Fits)
    (hle : total sizes ≤ (available - gaps).toNat)
    (hend : total sizes = (available - gaps).toNat ∨ ∀ s ∈ sizes, s.isCandidate .grow = false)
    (hroom : 0 < (available - gaps).toNat) :
    (total sizes + gaps : Int) = available ∨ ((total sizes + gaps : Int) < available
      ∧ ∀ s ∈ sizes, 0 < s.entry.growth → s.size = s.entry.max) := by
  rcases hend with heq | hnone
  · exact .inl (by omega)
  · by_cases hfull : (total sizes + gaps : Int) = available
    · exact .inl hfull
    · refine .inr ⟨by omega, fun s hs hgrowth => ?_⟩
      have hnot := hnone s hs
      simp only [Sized.isCandidate, hgrowth, decide_true, Bool.true_and, decide_eq_false_iff_not,
        Nat.not_lt] at hnot
      exact Nat.le_antisymm (hfits s hs).2.1 hnot

theorem filled_of_shrink {available : Int} {gaps : Nat} (hfits : ∀ s ∈ sizes, s.Fits)
    (hle : (available - gaps).toNat ≤ total sizes)
    (hend : total sizes = (available - gaps).toNat ∨ ∀ s ∈ sizes, s.isCandidate .shrink = false) :
    (total sizes + gaps : Int) = available ∨ (available < (total sizes + gaps : Int)
      ∧ ∀ s ∈ sizes, 0 < s.entry.shrinkage → s.size = s.entry.min) := by
  by_cases hfull : (total sizes + gaps : Int) = available
  · exact .inl hfull
  · refine .inr ⟨by omega, fun s hs hshrinkage => ?_⟩
    have hmin := (hfits s hs).1
    rcases hend with heq | hnone
    · -- the gaps alone take more than there is
      have hsize : s.size ≤ total sizes :=
        List.single_le_sum (fun _ _ => Nat.zero_le _) _ (List.mem_map_of_mem hs)
      omega
    · have hnot := hnone s hs
      simp only [Sized.isCandidate, hshrinkage, decide_true, Bool.true_and, decide_eq_false_iff_not,
        Nat.not_lt] at hnot
      exact Nat.le_antisymm hnot hmin

structure Fills (entries : List StackLayoutEntry) (gap : Nat) (base sizes : List Sized)
    (available : Rat) : Prop where
  filled : (total sizes + gaps entries gap : Int) = available.floor
    ∨ ((total sizes + gaps entries gap : Int) < available.floor
      ∧ ∀ s ∈ sizes, 0 < s.entry.growth → s.size = s.entry.max)
    ∨ (available.floor < (total sizes + gaps entries gap : Int)
      ∧ ∀ s ∈ sizes, 0 < s.entry.shrinkage → s.size = s.entry.min)
  grown : total base < contentSize entries available gap →
    List.Forall₂ (fun s t => s.size ≤ t.size) base sizes
  shrunk : contentSize entries available gap ≤ total base →
    List.Forall₂ (fun s t => t.size ≤ s.size) base sizes

/-- **The sizes fill the available cells** where the entries can and the numbers are safe integers: the
allocation ends, and the sizes and the gaps sum to the cells, or no entry can give or take any more. -/
theorem allocateStackSizes_fills (entries : List StackLayoutEntry) (intrinsicSizes : List Rat)
    (availableSize : Option Rat) (gap : Nat) (hentries : ∀ entry ∈ entries, entry.min ≤ entry.max)
    (hexact : Exact entries intrinsicSizes availableSize gap) :
    ∃ sizes, (∃ bound, ∀ rounds ≥ bound,
        allocateStackSizes rounds entries intrinsicSizes availableSize gap = some sizes)
      ∧ sizes.map (·.entry) = entries
      ∧ (∀ s ∈ sizes, s.entry.min ≤ s.size ∧ s.size ≤ s.entry.max)
      ∧ ∀ available ∈ availableSize,
        Fills entries gap (baseSizes entries intrinsicSizes) sizes available := by
  have hnames := @baseSizes_entries entries intrinsicSizes
  have hbase := baseSizes_fits intrinsicSizes hentries hexact.maxSizes
  have htotal := hexact.sizes
  unfold allocateStackSizes
  generalize baseSizes entries intrinsicSizes = base at hnames hbase htotal ⊢
  have hsizes {after : List Sized} (h : ∀ s ∈ after, s.Fits) :
      ∀ s ∈ after, s.entry.min ≤ s.size ∧ s.size ≤ s.entry.max :=
    fun s hs => ⟨(h s hs).1, (h s hs).2.1⟩
  cases availableSize with
  | none => exact ⟨base, ⟨0, fun _ _ => rfl⟩, hnames, hsizes hbase, nofun⟩
  | some available =>
    obtain ⟨hcontent, hsafe⟩ := contentSize_eq hexact.gaps (hexact.available available rfl)
    dsimp only
    rw [sum64_eq htotal]
    rcases Nat.lt_trichotomy (total base) (contentSize entries available gap) with hgrow | heq | hshrink
    · have hamount : contentSize entries available gap - total base ≤ maxSafeInteger := by omega
      obtain ⟨after, hafter, amount, hle, hspread, hend⟩ := distribute_spread hbase hamount
      have hsum := hspread.grown rfl
      refine ⟨after, ⟨contentSize entries available gap - total base, fun rounds hrounds => ?_⟩,
        (moved_entries hspread.moved).trans hnames, hsizes hspread.fits, ?_⟩
      · rw [if_pos hgrow, binary64_of_le hamount]
        exact hafter rounds hrounds
      · rintro _ ⟨⟩
        refine ⟨(filled_of_grow hspread.fits ?_ ?_ ?_).imp_right .inl,
          fun _ => hspread.moved.imp fun _ _ h => h.grown rfl,
          fun hge => absurd hgrow (Nat.not_lt.mpr hge)⟩
        · omega
        · exact hend.imp_left fun heq => by omega
        · omega
    · refine ⟨base, ⟨0, fun _ _ => ?_⟩, hnames, hsizes hbase, ?_⟩
      · rw [if_neg (Nat.not_lt.mpr (Nat.le_of_eq heq.symm)), if_neg (Nat.not_lt.mpr (Nat.le_of_eq heq))]
      · rintro _ ⟨⟩
        exact ⟨(filled_of_shrink hbase (by omega) (.inl (by omega))).imp_right .inr,
          fun hlt => absurd hlt (Nat.not_lt.mpr (Nat.le_of_eq heq.symm)),
          fun _ => List.forall₂_same.mpr fun _ _ => Nat.le_refl _⟩
    · have hamount : total base - contentSize entries available gap ≤ maxSafeInteger := by omega
      obtain ⟨after, hafter, amount, hle, hspread, hend⟩ := distribute_spread hbase hamount
      have hsum := hspread.shrunk rfl
      refine ⟨after, ⟨total base - contentSize entries available gap, fun rounds hrounds => ?_⟩,
        (moved_entries hspread.moved).trans hnames, hsizes hspread.fits, ?_⟩
      · rw [if_neg (Nat.not_lt.mpr (Nat.le_of_lt hshrink)), if_pos hshrink, binary64_of_le hamount]
        exact hafter rounds hrounds
      · rintro _ ⟨⟩
        refine ⟨(filled_of_shrink hspread.fits ?_ ?_).imp_right .inr,
          fun hlt => absurd hlt (Nat.not_lt.mpr (Nat.le_of_lt hshrink)),
          fun _ => hspread.moved.imp fun _ _ h => h.shrunk rfl⟩
        · omega
        · exact hend.imp_left fun heq => by omega

/-- Two entries that grow, the second up to three cells. -/
theorem allocateStackSizes_fills_grown :
    let entries := [addChild (some 1) (some (some 1)) none none none,
      addChild (some 0) (some (some 2)) none none (some (some 3))]
    (allocateStackSizes 9 entries [] (some 10) 1).map (·.map (·.size)) = some [6, 3]
      ∧ ∃ sizes, (∃ bound, ∀ rounds ≥ bound,
          allocateStackSizes rounds entries [] (some 10) 1 = some sizes)
        ∧ sizes.map (·.entry) = entries ∧ Fills entries 1 (baseSizes entries []) sizes 10 := by
  intro entries
  refine ⟨by decide +kernel, ?_⟩
  obtain ⟨sizes, hrounds, hnames, -, hfills⟩ := allocateStackSizes_fills entries [] (some 10) 1
    (by decide)
    { maxSizes := by decide
      sizes := by decide +kernel
      weights := fun mode => by cases mode <;> decide +kernel
      gaps := by decide
      available := by decide +kernel }
  exact ⟨sizes, hrounds, hnames, hfills 10 rfl⟩

/-- **Past the safe integers they need not**: `2 ^ 53 - 1` and 2 cells are taken for `2 ^ 53` together,
and neither entry gives the one that there is not. -/
theorem allocateStackSizes_overruns :
    let entries := [addChild (some (2 ^ 53 - 1)) none none none none,
      addChild (some 2) none none none none]
    (∀ entry ∈ entries, entry.min ≤ entry.max)
      ∧ ∀ rounds, ∃ sizes, allocateStackSizes rounds entries [] (some (2 ^ 53)) 0 = some sizes
        ∧ ¬ Fills entries 0 (baseSizes entries []) sizes (2 ^ 53) := by
  intro entries
  have hsum : sum64 ((baseSizes entries []).map (·.size)) = 2 ^ 53 := by decide +kernel
  have hcontent : contentSize entries (2 ^ 53) 0 = 2 ^ 53 := by decide +kernel
  have htotal : total (baseSizes entries []) + gaps entries 0 = 2 ^ 53 + 1 := by decide +kernel
  have hfloor : ((2 : Rat) ^ 53).floor = 2 ^ 53 := by decide +kernel
  refine ⟨by decide, fun rounds => ⟨baseSizes entries [], ?_, fun hfills => ?_⟩⟩
  · rw [allocateStackSizes]
    rw [hsum, hcontent, if_neg (Nat.lt_irrefl _), if_neg (Nat.lt_irrefl _)]
  · rcases hfills.filled with hall | ⟨hless, -⟩ | ⟨-, hnone⟩
    · omega
    · omega
    · have hlast := hnone (baseSizes entries [])[1] (List.getElem_mem _) (by decide +kernel)
      revert hlast
      decide +kernel

end ThreeXhaust.Tui.Stack
