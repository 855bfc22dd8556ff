import Mathlib.Data.List.Infix

/-!
# Received chunks

What a stream delivers is kept as the list of its chunks. `peek` looks at the first items, joining
the chunks only where the first one is too short; `consume` takes items off the front. Both speak
of the joined chunks alone (`peek_eq`, `consume_eq`).

A stream is synchronised on a pattern: `indexOf` finds its first occurrence. A pattern that ends on
an item it holds nowhere else cannot overlap itself, so behind items without the pattern it is found
where it stands (`indexOf_of_le`), and not before all of it is there (`indexOf_of_lt`).
-/

namespace Chunks

variable {α : Type}

/-- The first items, and the chunks as looking at them leaves them. -/
def peek (length : Nat) : List (List α) → Option (List α × List (List α))
  | [] => none
  | first :: rest =>
    if first.length < length then
      let all := first ++ rest.flatten
      some (all.take length, [all])
    else some (first.take length, first :: rest)

@[grind =] def consume : Nat → List (List α) → Option (List (List α))
  | 0, chunks => some chunks
  | _ + 1, [] => none
  | length + 1, first :: rest =>
    if first.length ≤ length + 1 then consume (length + 1 - first.length) rest
    else some (first.drop (length + 1) :: rest)

variable {chunks : List (List α)}

theorem peek_eq (length : Nat) (h : chunks ≠ []) :
    ∃ chunks', peek length chunks = some (chunks.flatten.take length, chunks') ∧
      chunks'.flatten = chunks.flatten ∧ chunks' ≠ [] := by
  cases chunks with
  | nil => exact absurd rfl h
  | cons first rest =>
    rw [peek, List.flatten_cons]
    split
    · exact ⟨_, rfl, by simp, by simp⟩
    · rename_i hlong
      refine ⟨_, ?_, List.flatten_cons, by simp⟩
      rw [List.take_append_of_le_length (Nat.not_lt.mp hlong)]

theorem consume_eq (length : Nat) (h : length ≤ chunks.flatten.length) :
    ∃ chunks', consume length chunks = some chunks' ∧
      chunks'.flatten = chunks.flatten.drop length := by
  induction chunks generalizing length with
  | nil =>
    obtain rfl : length = 0 := Nat.le_zero.mp h
    exact ⟨[], rfl, rfl⟩
  | cons first rest ih =>
    cases length with
    | zero => exact ⟨_, rfl, rfl⟩
    | succ length =>
      rw [List.flatten_cons, List.length_append] at h
      rw [consume, List.flatten_cons]
      split
      · rename_i hshort
        obtain ⟨chunks', hrun, hflat⟩ := ih (length + 1 - first.length) (by omega)
        refine ⟨chunks', hrun, ?_⟩
        rw [hflat, List.drop_append, List.drop_of_length_le hshort, List.nil_append]
      · rename_i hlong
        refine ⟨_, rfl, ?_⟩
        rw [List.flatten_cons, List.drop_append_of_le_length (by omega)]

theorem ne_nil_of_flatten (h : 0 < chunks.flatten.length) : chunks ≠ [] := by
  rintro rfl
  exact absurd h (Nat.lt_irrefl 0)

/-! ## Finding a pattern -/

variable [BEq α] [LawfulBEq α]

@[grind =] def indexOf (pattern : List α) : List α → Option Nat
  | [] => if pattern.isEmpty then some 0 else none
  | a :: rest =>
    if pattern.isPrefixOf (a :: rest) then some 0 else (indexOf pattern rest).map (· + 1)

variable {pattern items : List α}

theorem indexOf_eq_none (h : ∀ i, ¬ pattern <+: items.drop i) : indexOf pattern items = none := by
  induction items with
  | nil =>
    rw [indexOf, if_neg]
    intro hempty
    rw [List.isEmpty_iff] at hempty
    exact h 0 (hempty ▸ List.nil_prefix)
  | cons a rest ih =>
    rw [indexOf, if_neg, ih fun i => h (i + 1)]
    · rfl
    · rw [List.isPrefixOf_iff_prefix]
      exact h 0

theorem indexOf_eq_some {i : Nat} (h : pattern <+: items.drop i)
    (hfirst : ∀ j < i, ¬ pattern <+: items.drop j) (hi : i ≤ items.length) :
    indexOf pattern items = some i := by
  induction items generalizing i with
  | nil =>
    obtain rfl : i = 0 := Nat.le_zero.mp hi
    rw [indexOf, if_pos]
    rw [List.isEmpty_iff]
    exact List.prefix_nil.mp h
  | cons a rest ih =>
    cases i with
    | zero =>
      rw [indexOf, if_pos]
      exact List.isPrefixOf_iff_prefix.mpr h
    | succ i =>
      rw [indexOf, if_neg, ih h (fun j hj => hfirst (j + 1) (Nat.succ_lt_succ hj))
        (Nat.le_of_succ_le_succ hi)]
      · rfl
      · rw [List.isPrefixOf_iff_prefix]
        exact hfirst 0 (Nat.zero_lt_succ i)

/-! ## A pattern that does not overlap itself -/

omit [BEq α] [LawfulBEq α]

/-- The pattern ends on an item it holds nowhere else. -/
def Marked (pattern : List α) : Prop :=
  ∃ body mark, pattern = body ++ [mark] ∧ mark ∉ body

variable {noise rest : List α}

/-- Before its place, the pattern stands nowhere: not in the noise, and not across its end, where
its last item would have to be one of the others. -/
theorem Marked.no_earlier (hp : Marked pattern) (hnoise : ¬ pattern <:+: noise) {i : Nat}
    (hi : i < noise.length) : ¬ pattern <+: (noise ++ pattern ++ rest).drop i := by
  obtain ⟨body, mark, rfl, hmark⟩ := hp
  intro hat
  rw [List.append_assoc, List.drop_append_of_le_length (Nat.le_of_lt hi)] at hat
  have hnot : ¬ body ++ [mark] <+: noise.drop i := fun hin =>
    hnoise (hin.isInfix.trans (List.drop_suffix i noise).isInfix)
  rcases List.prefix_or_prefix_of_prefix hat (List.prefix_append _ _) with hin | ⟨behind, hsplit⟩
  · exact hnot hin
  · -- the pattern starts in the noise and reaches `behind` into itself
    have hlen := congrArg List.length hsplit
    simp only [List.length_append, List.length_drop, List.length_singleton] at hlen
    have hbehind : behind <+: body ++ ([mark] ++ rest) := by
      rw [← List.prefix_append_right_inj (noise.drop i), hsplit, ← List.append_assoc body]
      exact hat
    have hbody : behind <+: body :=
      List.prefix_of_prefix_length_le hbehind (List.prefix_append _ _) (by omega)
    cases hlast : behind.getLast? with
    | none =>
      rw [List.getLast?_eq_none_iff] at hlast
      rw [hlast, List.append_nil] at hsplit
      exact hnot (hsplit ▸ List.prefix_refl _)
    | some last =>
      have heq : last = mark := by
        have h := congrArg List.getLast? hsplit
        rw [List.getLast?_append, List.getLast?_append, hlast] at h
        simpa using h
      exact hmark (heq ▸ hbody.subset (List.mem_of_getLast? hlast))

section

variable [BEq α] [LawfulBEq α]

theorem Marked.indexOf_append (hp : Marked pattern) (hnoise : ¬ pattern <:+: noise) :
    indexOf pattern (noise ++ pattern ++ rest) = some noise.length := by
  apply indexOf_eq_some
  · rw [List.append_assoc, List.drop_left]
    exact List.prefix_append _ _
  · intro j hj
    exact hp.no_earlier hnoise hj
  · simp only [List.length_append]
    omega

theorem Marked.indexOf_of_lt (hp : Marked pattern) (hnoise : ¬ pattern <:+: noise)
    (hitems : items <+: noise ++ pattern ++ rest)
    (hlt : items.length < noise.length + pattern.length) : indexOf pattern items = none := by
  apply indexOf_eq_none
  intro i hat
  have hfull : pattern <+: (noise ++ pattern ++ rest).drop i := hat.trans (hitems.drop i)
  have hlen := hat.length_le
  rw [List.length_drop] at hlen
  have hpos : 0 < pattern.length := by
    obtain ⟨body, mark, rfl, _⟩ := hp
    simp
  exact hp.no_earlier hnoise (by omega) hfull

end

end Chunks
