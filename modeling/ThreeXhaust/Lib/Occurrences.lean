import ThreeXhaust.Lib.Chunks
import Mathlib.Data.Nat.Find

/-!
# Where a pattern stands in a text

An occurrence is a position; two of them may overlap. A search that goes on behind the end of the
first occurrence does not see those that overlap it:

* **`indexOf_drop_isSome_iff`** — what it does see.
-/

namespace Occurrences

variable {α : Type}

def OccursAt (pattern items : List α) (i : Nat) : Prop := pattern <+: items.drop i

structure FirstAt (pattern items : List α) (i : Nat) : Prop where
  occurs : OccursAt pattern items i
  first : ∀ j, OccursAt pattern items j → i ≤ j

/-- There is one occurrence, overlapping ones counted. -/
def OccursOnce (pattern items : List α) : Prop :=
  ∃ i, OccursAt pattern items i ∧ ∀ j, OccursAt pattern items j → j = i

def FirstOnly (pattern items : List α) : Prop :=
  ∃ i, FirstAt pattern items i ∧ ∀ j, OccursAt pattern items j → j < i + pattern.length

/-- The first occurrence is overlapped, and no occurrence stands behind it. -/
def OverlapsFirst (pattern items : List α) : Prop :=
  ∃ i, FirstAt pattern items i ∧
    (∃ j, OccursAt pattern items j ∧ i < j ∧ j < i + pattern.length) ∧
    ∀ j, OccursAt pattern items j → j < i + pattern.length

variable {pattern items : List α}

theorem OccursAt.bound {i : Nat} (h : OccursAt pattern items i) (hne : pattern ≠ []) :
    i + pattern.length ≤ items.length := by
  have hle := h.length_le
  have hpos := List.length_pos_iff.mpr hne
  rw [List.length_drop] at hle
  omega

theorem occursAt_drop {k i : Nat} :
    OccursAt pattern (items.drop k) i ↔ OccursAt pattern items (k + i) := by
  rw [OccursAt, OccursAt, List.drop_drop]

theorem FirstAt.unique {i j : Nat} (hi : FirstAt pattern items i) (hj : FirstAt pattern items j) :
    i = j :=
  Nat.le_antisymm (hi.first j hj.occurs) (hj.first i hi.occurs)

/-! ## Searching -/

section

variable [BEq α] [LawfulBEq α]

theorem indexOf_cases (hne : pattern ≠ []) (items : List α) :
    (Chunks.indexOf pattern items = none ∧ ∀ i, ¬ OccursAt pattern items i) ∨
    ∃ i, Chunks.indexOf pattern items = some i ∧ FirstAt pattern items i := by
  by_cases h : ∃ i, OccursAt pattern items i
  · right
    classical
    refine ⟨Nat.find h, ?_, Nat.find_spec h, fun j hj => Nat.find_min' h hj⟩
    refine Chunks.indexOf_eq_some (Nat.find_spec h) (fun j hj => Nat.find_min h hj) ?_
    have := OccursAt.bound (Nat.find_spec h) hne
    omega
  · left
    rw [not_exists] at h
    exact ⟨Chunks.indexOf_eq_none h, h⟩

theorem indexOf_eq_some_iff (hne : pattern ≠ []) {i : Nat} :
    Chunks.indexOf pattern items = some i ↔ FirstAt pattern items i := by
  obtain ⟨hnone, hnot⟩ | ⟨j, hsome, hfirst⟩ := indexOf_cases hne items
  · rw [hnone]
    constructor
    · intro h
      cases h
    · intro h
      exact absurd h.occurs (hnot i)
  · rw [hsome, Option.some.injEq]
    exact ⟨fun h => h ▸ hfirst, fun h => hfirst.unique h⟩

theorem indexOf_drop_isSome_iff (hne : pattern ≠ []) {k : Nat} :
    (Chunks.indexOf pattern (items.drop k)).isSome ↔ ∃ j, k ≤ j ∧ OccursAt pattern items j := by
  obtain ⟨hnone, hnot⟩ | ⟨i, hsome, hfirst⟩ := indexOf_cases hne (items.drop k)
  · rw [hnone]
    constructor
    · intro h
      cases h
    · rintro ⟨j, hj, hat⟩
      refine absurd (occursAt_drop.mpr ?_) (hnot (j - k))
      rwa [Nat.add_sub_cancel' hj]
  · rw [hsome]
    exact ⟨fun _ => ⟨k + i, Nat.le_add_right k i, occursAt_drop.mp hfirst.occurs⟩, fun _ => rfl⟩

end

/-- **That no occurrence stands behind the first one tells that it is the only one, but for the
texts in which the first one is overlapped and none stands behind.** -/
theorem first_only_iff (hne : pattern ≠ []) :
    (FirstOnly pattern items ↔ OccursOnce pattern items) ↔ ¬ OverlapsFirst pattern items := by
  have hpos := List.length_pos_iff.mpr hne
  constructor
  · rintro hiff ⟨i, hfirst, ⟨j, hj, hlt, -⟩, honly⟩
    obtain ⟨k, -, hunique⟩ := hiff.mp ⟨i, hfirst, honly⟩
    have hi := hunique i hfirst.occurs
    have hj := hunique j hj
    omega
  · intro hnot
    constructor
    · rintro ⟨i, hfirst, honly⟩
      refine ⟨i, hfirst.occurs, fun j hj => ?_⟩
      by_contra hne
      have hle := hfirst.first j hj
      exact hnot ⟨i, hfirst, ⟨j, hj, by omega, honly j hj⟩, honly⟩
    · rintro ⟨i, hi, hunique⟩
      refine ⟨i, ⟨hi, fun j hj => (hunique j hj).ge⟩, fun j hj => ?_⟩
      have := hunique j hj
      omega

end Occurrences
