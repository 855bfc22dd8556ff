import Mathlib.Data.List.Nodup

/-!
# Tables as lists of rows

An SQL table is a list of rows in insertion order, `UPDATE … WHERE` maps the rows it matches
and leaves the others, and its `changes` is the number it matched. With a primary key, what a
statement does is stated through the lookup of one key, so that statements compose and a
property of one row needs no list reasoning.
-/

namespace Table

variable {ρ κ : Type}

/-- `UPDATE … SET f WHERE p`. -/
def update (p : ρ → Bool) (f : ρ → ρ) (rows : List ρ) : List ρ :=
  rows.map fun r => if p r then f r else r

variable {rows : List ρ}

theorem update_of_forall {p : ρ → Bool} {f : ρ → ρ} (h : ∀ r ∈ rows, p r = false)
    : update p f rows = rows := by
  induction rows with
  | nil => rfl
  | cons r rest ih =>
    have hrest := ih fun r' hr' => h r' (by simp [hr'])
    rw [update, List.map_cons, ← update, hrest, h r (by simp)]
    simp

section Key

variable {key : ρ → κ} {p : ρ → Bool} {f : ρ → ρ}

theorem map_key_update (hf : ∀ r, key (f r) = key r) (rows : List ρ) :
    (update p f rows).map key = rows.map key := by
  rw [update, List.map_map]
  apply List.map_congr_left
  intro r _
  cases h : p r with
  | true => simp [h, hf]
  | false => simp [h]

variable [DecidableEq κ]

theorem find?_update (hf : ∀ r, key (f r) = key r) (rows : List ρ) (k : κ) :
    (update p f rows).find? (fun r => key r = k)
      = (rows.find? fun r => key r = k).map fun r => if p r then f r else r := by
  induction rows with
  | nil => rfl
  | cons r rest ih =>
    have hkey : key (if p r then f r else r) = key r := by
      cases p r with
      | true => simp [hf]
      | false => simp
    rw [update, List.map_cons, List.find?_cons, List.find?_cons, hkey]
    by_cases hk : key r = k
    · simp [hk]
    · simp only [hk, decide_false]
      exact ih

theorem find?_key (hn : (rows.map key).Nodup) {r : ρ} (hr : r ∈ rows) :
    (rows.find? fun r' => key r' = key r) = some r := by
  induction rows with
  | nil => cases hr
  | cons a rest ih =>
    rw [List.map_cons, List.nodup_cons] at hn
    rw [List.find?_cons]
    rcases List.mem_cons.mp hr with rfl | hr
    · simp
    · have hne : key a ≠ key r := fun he => hn.1 (he ▸ List.mem_map_of_mem hr)
      simpa [hne] using ih hn.2 hr

theorem update_one (hn : (rows.map key).Nodup) {k : κ} (hp : ∀ r, p r = true → key r = k)
    (hf : ∀ r, key (f r) = key r) (hcount : rows.countP p = 1) :
    ∃ row, p row = true ∧ (rows.find? fun r => key r = k) = some row
      ∧ ((update p f rows).find? fun r => key r = k) = some (f row)
      ∧ ∀ j, j ≠ k → ((update p f rows).find? fun r => key r = j) = rows.find? fun r => key r = j := by
  obtain ⟨row, hmem, hrow⟩ : ∃ row ∈ rows, p row = true := by
    apply List.countP_pos_iff.mp
    omega
  have hfound : (rows.find? fun r => key r = k) = some row := hp row hrow ▸ find?_key hn hmem
  refine ⟨row, hrow, hfound, ?_, ?_⟩
  · rw [find?_update hf, hfound]
    simp [hrow]
  · intro j hj
    rw [find?_update hf]
    cases hr : rows.find? fun r => key r = j with
    | none => rfl
    | some r =>
      have hne : p r = false := by
        apply Bool.eq_false_iff.mpr
        intro hpr
        have hkey : key r = j := by simpa using List.find?_some hr
        exact hj (hkey.symm.trans (hp r hpr))
      simp [hne]

theorem find?_insert {row : ρ} (hfresh : key row ∉ rows.map key) (k : κ) :
    ((rows ++ [row]).find? fun r => key r = k)
      = if k = key row then some row else rows.find? fun r => key r = k := by
  rw [List.find?_append]
  by_cases hk : k = key row
  · subst hk
    have hnone : (rows.find? fun r => key r = key row) = none := by
      rw [List.find?_eq_none]
      intro r hr hkey
      exact hfresh (of_decide_eq_true hkey ▸ List.mem_map_of_mem hr)
    simp [hnone]
  · have hother : ¬ key row = k := fun he => hk he.symm
    simp [hk, hother]

omit [DecidableEq κ] in
theorem nodup_insert {rows : List ρ} {row : ρ} (hn : (rows.map key).Nodup)
    (hfresh : key row ∉ rows.map key) : ((rows ++ [row]).map key).Nodup := by
  rw [List.map_append, List.nodup_append]
  refine ⟨hn, by simp, ?_⟩
  rintro a ha b hb rfl
  rw [List.map_singleton, List.mem_singleton] at hb
  exact hfresh (hb ▸ ha)

theorem modify_findIdx? (hn : (rows.map key).Nodup) {k : κ} {i : Nat}
    (hi : rows.findIdx? (fun r => key r = k) = some i) (f : ρ → ρ) :
    rows.modify i f = update (fun r => key r = k) f rows := by
  induction rows generalizing i with
  | nil => cases hi
  | cons a rest ih =>
    rw [List.map_cons, List.nodup_cons] at hn
    rw [List.findIdx?_cons] at hi
    by_cases ha : key a = k
    · obtain rfl : 0 = i := by simpa [ha] using hi
      have hrest : update (fun r => key r = k) f rest = rest := by
        apply update_of_forall
        intro r hr
        have hne : key r ≠ k := fun he => hn.1 (ha ▸ he ▸ List.mem_map_of_mem hr)
        simp [hne]
      rw [List.modify_zero_cons, update, List.map_cons, ← update, hrest]
      simp [ha]
    · obtain ⟨j, hj, rfl⟩ : ∃ j, rest.findIdx? (fun r => key r = k) = some j ∧ j + 1 = i := by
        simpa [ha] using hi
      rw [List.modify_succ_cons, ih hn.2 hj, update, update, List.map_cons]
      simp [ha]

omit [DecidableEq κ] in
theorem countP_le_one {rows : List ρ} (hn : (rows.map key).Nodup)
    (hp : ∀ a ∈ rows, ∀ b ∈ rows, p a = true → p b = true → key a = key b) :
    rows.countP p ≤ 1 := by
  induction rows with
  | nil => simp
  | cons a rest ih =>
    rw [List.map_cons, List.nodup_cons] at hn
    have hrest := ih hn.2 fun b hb c hc => hp b (by simp [hb]) c (by simp [hc])
    rw [List.countP_cons]
    cases ha : p a with
    | false => simpa [ha] using hrest
    | true =>
      -- another match further down would repeat the key of `a`
      have hzero : rest.countP p = 0 := by
        rw [List.countP_eq_zero]
        intro b hb hpb
        have hk := hp a (by simp) b (by simp [hb]) ha hpb
        exact hn.1 (hk ▸ List.mem_map_of_mem hb)
      simp [hzero]

end Key

end Table
