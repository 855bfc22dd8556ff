import Mathlib.Data.List.Basic

/-!
# Files of lines

`split` cuts items at each mark, and leaves the unfinished line behind the last one. A file that
is read in pieces, the unfinished line carried over, gives the lines of the whole file
(`read_eq`), and appending a finished line adds it and moves no other (`split_append_line`).
-/

namespace Lines

variable {α β : Type} [DecidableEq α]

@[grind =] def split (mark : α) : List α → List (List α) × List α
  | [] => ([], [])
  | a :: rest =>
    let (lines, last) := split mark rest
    if a = mark then ([] :: lines, last)
    else
      match lines with
      | [] => ([], a :: last)
      | line :: lines => ((a :: line) :: lines, last)

variable {mark : α}

theorem split_append (a b : List α) :
    split mark (a ++ b) =
      ((split mark a).1 ++ (split mark ((split mark a).2 ++ b)).1,
        (split mark ((split mark a).2 ++ b)).2) := by
  induction a with
  | nil => rfl
  | cons x a ih =>
    rw [List.cons_append, split, ih]
    conv_rhs => rw [split]
    by_cases hx : x = mark
    · simp only [hx, if_true, List.cons_append]
    · simp only [hx, if_false]
      cases hlines : (split mark a).1 with
      | nil =>
        simp only [List.nil_append, List.cons_append, split, hx, if_false]
      | cons line lines => simp only [List.cons_append]

theorem split_line {line : List α} (h : mark ∉ line) (rest : List α) :
    split mark (line ++ mark :: rest) = (line :: (split mark rest).1, (split mark rest).2) := by
  induction line with
  | nil =>
    rw [List.nil_append, split]
    simp only [if_true]
  | cons x line ih =>
    rw [List.mem_cons, not_or] at h
    rw [List.cons_append, split, ih h.2]
    simp only [if_neg (Ne.symm h.1)]

def Finished (mark : α) (file : List α) : Prop := (split mark file).2 = []

/-- **Appending a line** to a finished file adds it behind the others. -/
theorem split_append_line {file line : List α} (hfile : Finished mark file) (h : mark ∉ line) :
    split mark (file ++ (line ++ [mark])) = ((split mark file).1 ++ [line], []) := by
  rw [split_append, hfile, List.nil_append, split_line h]
  rfl

theorem not_mem_unfinished (file : List α) : mark ∉ (split mark file).2 := by
  induction file with
  | nil => exact List.not_mem_nil
  | cons a rest ih =>
    rw [split]
    by_cases ha : a = mark
    · simpa only [ha, if_true] using ih
    · simp only [ha, if_false]
      cases hlines : (split mark rest).1 with
      | nil =>
        simp only [List.mem_cons, not_or]
        exact ⟨Ne.symm ha, ih⟩
      | cons line lines => exact ih

/-- Nor in a finished one. -/
theorem not_mem_finished {file line : List α} (h : line ∈ (split mark file).1) : mark ∉ line := by
  induction file generalizing line with
  | nil => exact absurd h List.not_mem_nil
  | cons a rest ih =>
    rw [split] at h
    by_cases ha : a = mark
    · simp only [ha, if_true, List.mem_cons] at h
      rcases h with rfl | h
      · exact List.not_mem_nil
      · exact ih h
    · simp only [ha, if_false] at h
      cases hlines : (split mark rest).1 with
      | nil =>
        rw [hlines] at h
        exact absurd h List.not_mem_nil
      | cons first lines =>
        rw [hlines] at h ih
        rcases List.mem_cons.mp h with rfl | h
        · rw [List.mem_cons, not_or]
          exact ⟨Ne.symm ha, ih List.mem_cons_self⟩
        · exact ih (List.mem_cons_of_mem _ h)

/-- **Finishing** the last line. -/
theorem split_finish (file : List α) :
    split mark (file ++ [mark]) = ((split mark file).1 ++ [(split mark file).2], []) := by
  rw [split_append, split_line (not_mem_unfinished file)]
  rfl

theorem flatMap_split (file : List α) :
    (split mark file).1.flatMap (· ++ [mark]) ++ (split mark file).2 = file := by
  induction file with
  | nil => rfl
  | cons a rest ih =>
    rw [split]
    by_cases ha : a = mark
    · simp only [ha, if_true, List.flatMap_cons, List.nil_append, List.cons_append, ih]
    · simp only [ha, if_false]
      cases hlines : (split mark rest).1 with
      | nil =>
        rw [hlines, List.flatMap_nil, List.nil_append] at ih
        simp only [List.flatMap_nil, List.nil_append, ih]
      | cons line lines =>
        rw [hlines, List.flatMap_cons] at ih
        simp only [List.flatMap_cons, List.cons_append, ih]

theorem length_split (file : List α) : (split mark file).1.length = file.count mark := by
  induction file with
  | nil => rfl
  | cons a rest ih =>
    rw [split, List.count_cons, ← ih]
    by_cases ha : a = mark
    · simp only [ha, if_true, List.length_cons, beq_self_eq_true]
    · simp only [ha, if_false, beq_iff_eq]
      cases (split mark rest).1 with
      | nil => rfl
      | cons line lines => rfl

theorem split_of_not_mem {file : List α} (h : mark ∉ file) : split mark file = ([], file) := by
  have hlines : (split mark file).1 = [] :=
    List.eq_nil_of_length_eq_zero ((length_split file).trans (List.count_eq_zero.mpr h))
  have hfile := @flatMap_split _ _ mark file
  rw [hlines, List.flatMap_nil, List.nil_append] at hfile
  exact Prod.ext hlines hfile

theorem split_append_snd (a b : List α) :
    (split mark (a ++ b)).2 =
      if mark ∈ b then (split mark b).2 else (split mark a).2 ++ b := by
  rw [split_append]
  split
  · rename_i hmem
    obtain ⟨x, y, rfl, hx⟩ := List.eq_append_cons_of_mem hmem
    have hline : mark ∉ (split mark a).2 ++ x := fun h =>
      (List.mem_append.mp h).elim (not_mem_unfinished a) hx
    rw [← List.append_assoc, split_line hline, split_line hx]
  · rename_i hmem
    rw [split_of_not_mem fun h => (List.mem_append.mp h).elim (not_mem_unfinished a) hmem]

theorem finished_iff (file : List α) : Finished mark file ↔ file = [] ∨ file.getLast? = some mark := by
  rcases List.eq_nil_or_concat file with rfl | ⟨init, last, rfl⟩
  · exact ⟨fun _ => .inl rfl, fun _ => rfl⟩
  · rw [List.concat_eq_append, Finished, split_append_snd, List.getLast?_concat, Option.some_inj]
    by_cases hlast : mark = last
    · simp [hlast, split]
    · simp [hlast, Ne.symm hlast]

theorem exists_finished (file : List α) :
    ∃ done, file = done ++ (split mark file).2 ∧ Finished mark done := by
  refine ⟨_, (flatMap_split file).symm, ?_⟩
  rw [finished_iff]
  rcases List.eq_nil_or_concat (split mark file).1 with hnil | ⟨lines, last, hlines⟩
  · rw [hnil]
    exact .inl rfl
  · right
    rw [hlines]
    simp

/-! ## Reading in pieces -/

@[grind =] def pieces (size : Nat) : Nat → List α → List (List α)
  | 0, _ => []
  | _ + 1, [] => []
  | fuel + 1, a :: rest => (a :: rest).take size :: pieces size fuel ((a :: rest).drop size)

omit [DecidableEq α] in
theorem pieces_flatten {size : Nat} (hsize : 0 < size) (fuel : Nat) (file : List α)
    (h : file.length ≤ fuel) : (pieces size fuel file).flatten = file := by
  induction fuel generalizing file with
  | zero =>
    rw [List.eq_nil_of_length_eq_zero (Nat.le_zero.mp h)]
    rfl
  | succ fuel ih =>
    cases file with
    | nil => rfl
    | cons a rest =>
      rw [pieces, List.flatten_cons, ih _ (by
        rw [List.length_drop, List.length_cons] at *
        omega), List.take_append_drop]

def read (mark : α) (parse : List α → Option β) (files : List (List α)) : List β × List α :=
  files.foldl (fun (entries, pending) piece =>
    let (lines, rest) := split mark (pending ++ piece)
    (entries ++ lines.filterMap parse, rest)) ([], [])

/-- **Reading in pieces** is reading at once. -/
theorem read_eq (parse : List α → Option β) (files : List (List α)) :
    read mark parse files =
      ((split mark files.flatten).1.filterMap parse, (split mark files.flatten).2) := by
  have hfrom : ∀ seen : List α, files.foldl (fun (entries, pending) piece =>
      let (lines, rest) := split mark (pending ++ piece)
      (entries ++ lines.filterMap parse, rest))
        ((split mark seen).1.filterMap parse, (split mark seen).2) =
      ((split mark (seen ++ files.flatten)).1.filterMap parse,
        (split mark (seen ++ files.flatten)).2) := by
    induction files with
    | nil =>
      intro seen
      rw [List.flatten_nil, List.append_nil]
      rfl
    | cons piece files ih =>
      intro seen
      rw [List.foldl_cons, List.flatten_cons, ← List.append_assoc, ← ih (seen ++ piece)]
      congr 1
      rw [split_append seen piece, List.filterMap_append]
  exact hfrom []

end Lines
