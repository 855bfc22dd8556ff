import Mathlib.Data.List.Nodup

/-!
# Maps in insertion order

A JavaScript `Map` is a list of entries; setting a key that is there keeps its place, and a new key
goes behind the others.
-/

namespace Assoc

variable {κ α : Type} [DecidableEq κ]

def set (entries : List (κ × α)) (key : κ) (value : α) : List (κ × α) :=
  if entries.any (·.1 = key) then
    entries.map fun entry => if entry.1 = key then (key, value) else entry
  else entries ++ [(key, value)]

/-- `Map.delete`. -/
def erase (entries : List (κ × α)) (key : κ) : List (κ × α) :=
  entries.filter (·.1 ≠ key)

variable {entries : List (κ × α)} {key other : κ} {value : α}

theorem lookup_eq_none_iff : entries.lookup key = none ↔ key ∉ entries.map (·.1) := by
  induction entries with
  | nil => simp
  | cons entry rest ih =>
    rw [List.lookup_cons, List.map_cons, List.mem_cons]
    by_cases hkey : key = entry.1
    · simp [hkey]
    · have hbeq : (key == entry.1) = false := by simpa using hkey
      rw [hbeq, ih]
      simp [hkey]

theorem mem_of_lookup (h : entries.lookup key = some value) : (key, value) ∈ entries := by
  induction entries with
  | nil => cases h
  | cons entry rest ih =>
    rw [List.lookup_cons] at h
    by_cases hkey : key = entry.1
    · subst hkey
      simp only [beq_self_eq_true, Option.some.injEq] at h
      subst h
      exact List.mem_cons_self
    · have hbeq : (key == entry.1) = false := by simpa using hkey
      rw [hbeq] at h
      exact List.mem_cons_of_mem _ (ih h)

theorem lookup_of_mem (hn : (entries.map (·.1)).Nodup) (h : (key, value) ∈ entries) :
    entries.lookup key = some value := by
  induction entries with
  | nil => cases h
  | cons entry rest ih =>
    rw [List.map_cons, List.nodup_cons] at hn
    rw [List.lookup_cons]
    rcases List.mem_cons.mp h with rfl | hrest
    · simp
    · have hne : key ≠ entry.1 := by
        rintro rfl
        exact hn.1 (List.mem_map.mpr ⟨_, hrest, rfl⟩)
      have hbeq : (key == entry.1) = false := by simpa using hne
      rw [hbeq]
      exact ih hn.2 hrest

/-- **Reading what was set.** -/
theorem lookup_set : (set entries key value).lookup other
    = if other = key then some value else entries.lookup other := by
  induction entries with
  | nil =>
    rw [set]
    by_cases hother : other = key
    · simp [hother]
    · simp [hother]
  | cons entry rest ih =>
    by_cases hentry : entry.1 = key
    · -- the first entry is the one that is set; those behind it with the same key are hidden
      have hset : set (entry :: rest) key value
          = (key, value) :: rest.map fun e => if e.1 = key then (key, value) else e := by
        simp [set, hentry]
      rw [hset, List.lookup_cons, List.lookup_cons, hentry]
      by_cases hother : other = key
      · simp [hother]
      · have hbeq : (other == key) = false := by simpa using hother
        rw [hbeq, if_neg hother]
        simp only
        clear ih hset
        induction rest with
        | nil => rfl
        | cons e rest ih =>
          rw [List.map_cons, List.lookup_cons, List.lookup_cons]
          by_cases he : e.1 = key
          · rw [if_pos he, hbeq, he, hbeq]
            exact ih
          · rw [if_neg he, ih]
    · have hset : set (entry :: rest) key value = entry :: set rest key value := by
        by_cases hrest : rest.any (·.1 = key)
        · simp [set, hentry, hrest]
        · simp [set, hentry, hrest]
      rw [hset, List.lookup_cons, List.lookup_cons, ih]
      by_cases hother : other = entry.1
      · simp [hother, hentry]
      · have hbeq : (other == entry.1) = false := by simpa using hother
        rw [hbeq]

/-- A key keeps its place. -/
theorem map_fst_set : (set entries key value).map (·.1)
    = if key ∈ entries.map (·.1) then entries.map (·.1) else entries.map (·.1) ++ [key] := by
  have hany : entries.any (·.1 = key) ↔ key ∈ entries.map (·.1) := by
    simp only [List.any_eq_true, decide_eq_true_eq, List.mem_map]
  rw [set]
  by_cases hmem : key ∈ entries.map (·.1)
  · rw [if_pos (hany.mpr hmem), if_pos hmem, List.map_map]
    apply List.map_congr_left
    intro entry _
    by_cases hentry : entry.1 = key
    · simp [hentry]
    · simp [hentry]
  · rw [if_neg (fun h => hmem (hany.mp h)), if_neg hmem, List.map_append]
    rfl

theorem nodup_set (h : (entries.map (·.1)).Nodup) : ((set entries key value).map (·.1)).Nodup := by
  rw [map_fst_set]
  split
  · exact h
  · rename_i hmem
    exact h.append (List.nodup_singleton _) (by simpa using hmem)

theorem mem_set {entry : κ × α} (h : entry ∈ set entries key value) :
    entry = (key, value) ∨ entry ∈ entries := by
  rw [set] at h
  split at h
  · obtain ⟨old, hold, heq⟩ := List.mem_map.mp h
    split at heq
    · exact .inl heq.symm
    · exact .inr (heq ▸ hold)
  · rw [List.mem_append, List.mem_singleton] at h
    exact h.symm

/-- Entries that are set one after the other. -/
theorem lookup_foldl_set {keyOf : κ × α → κ} (items : List (κ × α))
    (hkey : ∀ item ∈ items, keyOf item = item.1) (hn : (items.map (·.1)).Nodup) :
    (items.foldl (fun entries item => set entries (keyOf item) item.2) entries).lookup other
      = (items.lookup other).or (entries.lookup other) := by
  induction items generalizing entries with
  | nil => rfl
  | cons item rest ih =>
    rw [List.map_cons, List.nodup_cons] at hn
    rw [List.foldl_cons, ih (fun i hi => hkey i (List.mem_cons_of_mem _ hi)) hn.2, lookup_set,
      hkey item List.mem_cons_self, List.lookup_cons]
    by_cases hother : other = item.1
    · have hnone : rest.lookup other = none := by
        rw [lookup_eq_none_iff, hother]
        exact hn.1
      simp [hother, hother ▸ hnone]
    · have hbeq : (other == item.1) = false := by simpa using hother
      rw [hbeq, if_neg hother]

/-- What was erased is gone, and nothing else is. -/
theorem lookup_erase : (erase entries key).lookup other
    = if other = key then none else entries.lookup other := by
  induction entries with
  | nil => simp [erase]
  | cons entry rest ih =>
    rw [erase] at ih ⊢
    by_cases hentry : entry.1 = key
    · rw [List.filter_cons_of_neg (by simpa using hentry), ih, List.lookup_cons, hentry]
      by_cases hother : other = key
      · simp [hother]
      · have hbeq : (other == key) = false := by simpa using hother
        rw [hbeq]
    · rw [List.filter_cons_of_pos (by simpa using hentry), List.lookup_cons, List.lookup_cons, ih]
      by_cases hother : other = entry.1
      · have hkey : other ≠ key := fun h => hentry (hother ▸ h)
        simp [hother, hentry]
      · have hbeq : (other == entry.1) = false := by simpa using hother
        rw [hbeq]

theorem erase_set_of_not_mem (h : key ∉ entries.map (·.1)) :
    erase (set entries key value) key = entries := by
  have hany : ¬ entries.any (·.1 = key) := by
    rw [List.any_eq_true]
    rintro ⟨entry, hmem, heq⟩
    exact h (List.mem_map.mpr ⟨entry, hmem, by simpa using heq⟩)
  rw [set, if_neg hany, erase, List.filter_append, List.filter_eq_self.mpr]
  · simp
  · intro entry hmem
    have hne : entry.1 ≠ key := fun heq => h (List.mem_map.mpr ⟨entry, hmem, heq⟩)
    simpa using hne

end Assoc
