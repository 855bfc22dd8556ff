import Mathlib.Data.List.Nodup

/-!
# Removing items by their positions

Positions are spliced out of a list from the largest to the smallest, so that none of them moves
before its turn. What is left are the items at the other positions.
-/

namespace Splice

variable {α : Type}

def removeAll (items : List α) (removed : List Nat) : List α :=
  (removed.mergeSort (· ≥ ·)).foldl List.eraseIdx items

/-- The positions of the items that `keep` selects. -/
def positions (keep : α → Bool) (items : List α) : List Nat :=
  items.zipIdx.flatMap fun (item, index) => if keep item then [index] else []

variable {items : List α} {x : α}

theorem getElem?_eraseIdx_iff (d : Nat) (ds : List Nat) (hless : ∀ i ∈ ds, i < d) :
    (∃ i, i ∉ ds ∧ (items.eraseIdx d)[i]? = some x) ↔ ∃ i, i ∉ d :: ds ∧ items[i]? = some x := by
  constructor
  · rintro ⟨i, hi, hx⟩
    rw [List.getElem?_eraseIdx] at hx
    split at hx
    · rename_i hlt
      exact ⟨i, by simp [hi, Nat.ne_of_lt hlt], hx⟩
    · rename_i hge
      refine ⟨i + 1, ?_, hx⟩
      rw [List.mem_cons, not_or]
      exact ⟨by omega, fun hmem => by have := hless _ hmem; omega⟩
  · rintro ⟨i, hi, hx⟩
    rw [List.mem_cons, not_or] at hi
    rcases Nat.lt_or_gt_of_ne hi.1 with hlt | hgt
    · exact ⟨i, hi.2, by rw [List.getElem?_eraseIdx_of_lt hlt, hx]⟩
    · refine ⟨i - 1, fun hmem => by have := hless _ hmem; omega, ?_⟩
      rw [List.getElem?_eraseIdx_of_ge (by omega), Nat.sub_add_cancel (by omega), hx]

theorem mem_foldl_eraseIdx {ds : List Nat} (hds : ds.Pairwise (· > ·)) :
    x ∈ ds.foldl List.eraseIdx items ↔ ∃ i, i ∉ ds ∧ items[i]? = some x := by
  induction ds generalizing items with
  | nil => simp [List.mem_iff_getElem?]
  | cons d ds ih =>
    rw [List.pairwise_cons] at hds
    rw [List.foldl_cons, ih hds.2]
    exact getElem?_eraseIdx_iff d ds hds.1

theorem sublist_foldl_eraseIdx (ds : List Nat) : (ds.foldl List.eraseIdx items).Sublist items := by
  induction ds generalizing items with
  | nil => exact List.Sublist.refl _
  | cons d ds ih => exact ih.trans (List.eraseIdx_sublist _ _)

theorem removeAll_sublist (removed : List Nat) : (removeAll items removed).Sublist items :=
  sublist_foldl_eraseIdx _

/-- **What is left** are the items at the other positions. -/
theorem mem_removeAll {removed : List Nat} (hn : removed.Nodup) :
    x ∈ removeAll items removed ↔ ∃ i, i ∉ removed ∧ items[i]? = some x := by
  have hsorted : (removed.mergeSort (· ≥ ·)).Pairwise (· > ·) := by
    have hge : (removed.mergeSort (· ≥ ·)).Pairwise fun a b => decide (a ≥ b) = true :=
      List.pairwise_mergeSort (fun a b c hab hbc => by simp at *; omega)
        (fun a b => by simp; omega) removed
    have hne : (removed.mergeSort (· ≥ ·)).Nodup := (List.mergeSort_perm _ _).nodup_iff.mpr hn
    refine (hge.and hne).imp fun {a b} h => ?_
    have hle : a ≥ b := by simpa using h.1
    have hneq : a ≠ b := h.2
    show b < a
    omega
  rw [removeAll, mem_foldl_eraseIdx hsorted]
  simp only [List.mem_mergeSort]

theorem mem_positions {keep : α → Bool} {i : Nat} :
    i ∈ positions keep items ↔ ∃ item, items[i]? = some item ∧ keep item := by
  rw [positions, List.mem_flatMap]
  constructor
  · rintro ⟨⟨item, index⟩, hmem, hi⟩
    rw [List.mk_mem_zipIdx_iff_getElem?] at hmem
    simp only at hi
    split at hi
    · rename_i hkeep
      rw [List.mem_singleton.mp hi]
      exact ⟨item, hmem, hkeep⟩
    · cases hi
  · rintro ⟨item, hitem, hkeep⟩
    refine ⟨(item, i), List.mk_mem_zipIdx_iff_getElem?.mpr hitem, ?_⟩
    simp [hkeep]

theorem nodup_positions (keep : α → Bool) : (positions keep items).Nodup := by
  have hsub : ∀ pairs : List (α × Nat),
      (pairs.flatMap fun (item, index) => if keep item then [index] else []).Sublist
        (pairs.map Prod.snd) := by
    intro pairs
    induction pairs with
    | nil => exact List.Sublist.refl _
    | cons pair rest ih =>
      rw [List.flatMap_cons, List.map_cons]
      cases hkeep : keep pair.1 with
      | true => simpa [hkeep] using ih
      | false => simpa [hkeep] using ih.cons pair.2
  apply (hsub items.zipIdx).nodup
  rw [List.zipIdx_map_snd]
  exact List.nodup_range'

end Splice
