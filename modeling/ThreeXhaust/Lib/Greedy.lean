import Mathlib.Data.List.Infix
import Mathlib.Data.List.TakeWhile
import Mathlib.Algebra.GroupWithZero.Nat

/-!
# Greedy matches of a repeated class

What `text.matchAll(/[p]{n,}/g)` finds for a class of characters `p` and `n > 0`: from the left,
every stretch of the class that is at least `n` long, as far as it goes.

* **`total_append_cons`** — an element outside of the class parts a list into two that are matched
  on their own.
-/

namespace Greedy

variable {α : Type}

/-- The matches of `/[p]{n,}/g`. -/
def stretches (p : α → Bool) (n : Nat) : List α → List (List α)
  | [] => []
  | a :: rest =>
    let run := a :: rest.takeWhile p
    if p a && decide (n ≤ run.length) then run :: stretches p n (rest.dropWhile p)
    else stretches p n rest
termination_by text => text.length
decreasing_by
  · exact Nat.lt_succ_of_le (List.length_dropWhile_le p rest)
  · exact Nat.lt_succ_self _

def total (p : α → Bool) (n : Nat) (text : List α) : Nat :=
  ((stretches p n text).map List.length).sum

variable {p : α → Bool} {n : Nat}

/-! ## Parting a list -/

theorem takeWhile_append_cons {c : α} (hc : p c = false) (left right : List α) :
    (left ++ c :: right).takeWhile p = left.takeWhile p := by
  induction left with
  | nil => simp [hc]
  | cons a left ih =>
    rw [List.cons_append, List.takeWhile_cons, List.takeWhile_cons, ih]

theorem dropWhile_append_cons {c : α} (hc : p c = false) (left right : List α) :
    (left ++ c :: right).dropWhile p = left.dropWhile p ++ c :: right := by
  induction left with
  | nil => simp [hc]
  | cons a left ih =>
    rw [List.cons_append, List.dropWhile_cons, List.dropWhile_cons, ih]
    split <;> rfl

theorem stretches_append_cons {c : α} (hc : p c = false) (left right : List α) :
    stretches p n (left ++ c :: right) = stretches p n left ++ stretches p n right := by
  fun_induction stretches p n left with
  | case1 =>
    show stretches p n (c :: right) = _
    rw [stretches, hc, Bool.false_and, if_neg Bool.false_ne_true]
    rfl
  | case2 a rest run hrun ih =>
    show stretches p n (a :: (rest ++ c :: right)) = _
    rw [stretches, takeWhile_append_cons hc, if_pos hrun, dropWhile_append_cons hc, ih]
    rfl
  | case3 a rest run hrun ih =>
    show stretches p n (a :: (rest ++ c :: right)) = _
    rw [stretches, takeWhile_append_cons hc, if_neg hrun, ih]

theorem total_append_cons {c : α} (hc : p c = false) (left right : List α) :
    total p n (left ++ c :: right) = total p n left + total p n right := by
  rw [total, stretches_append_cons hc, List.map_append, List.sum_append]
  rfl

/-! ## Whether there is a match -/

theorem mem_stretches {text run : List α} (h : run ∈ stretches p n text) :
    run <:+: text ∧ n ≤ run.length ∧ 0 < run.length ∧ ∀ a ∈ run, p a = true := by
  fun_induction stretches p n text with
  | case1 => cases h
  | case2 a rest whole hwhole ih =>
    obtain ⟨ha, hlen⟩ := Bool.and_eq_true_iff.mp hwhole
    rcases List.mem_cons.mp h with rfl | h
    · refine ⟨?_, of_decide_eq_true hlen, Nat.succ_pos _, fun b hb => ?_⟩
      · exact (List.prefix_cons_inj a |>.mpr (List.takeWhile_prefix p)).isInfix
      · rcases List.mem_cons.mp hb with rfl | hb
        · exact ha
        · exact List.mem_takeWhile_imp hb
    · obtain ⟨hin, hrest⟩ := ih h
      exact ⟨hin.trans ((List.dropWhile_suffix p).trans (List.suffix_cons a rest)).isInfix, hrest⟩
  | case3 a rest whole hwhole ih =>
    obtain ⟨hin, hrest⟩ := ih h
    exact ⟨hin.trans (List.suffix_cons a rest).isInfix, hrest⟩

theorem le_total {text run : List α} (hin : run <:+: text) (hlen : n ≤ run.length)
    (hpos : 0 < run.length) (hp : ∀ a ∈ run, p a = true) :
    n ≤ total p n text ∧ 0 < total p n text := by
  fun_induction stretches p n text with
  | case1 =>
    rw [List.eq_nil_of_infix_nil hin] at hpos
    cases hpos
  | case2 a rest whole hwhole ih =>
    obtain ⟨-, hlong⟩ := Bool.and_eq_true_iff.mp hwhole
    have htotal : total p n (a :: rest) = whole.length + total p n (rest.dropWhile p) := by
      rw [total, stretches, if_pos hwhole, List.map_cons, List.sum_cons]
      rfl
    have hwholePos : 0 < whole.length := Nat.succ_pos _
    have := of_decide_eq_true hlong
    omega
  | case3 a rest whole hwhole ih =>
    have htotal : total p n (a :: rest) = total p n rest := by
      rw [total, stretches, if_neg hwhole]
      rfl
    rw [htotal]
    rcases List.infix_cons_iff.mp hin with hprefix | hin
    · -- the stretch starts here, so it would have been matched here
      exfalso
      cases run with
      | nil => cases hpos
      | cons b more =>
        obtain ⟨rfl, hmore⟩ := List.cons_prefix_cons.mp hprefix
        have hprefix : more <+: rest.takeWhile p := by
          obtain ⟨tail, rfl⟩ := hmore
          rw [List.takeWhile_append_of_pos fun c hc => hp c (List.mem_cons_of_mem _ hc)]
          exact List.prefix_append _ _
        have hle := hprefix.length_le
        rw [hp b List.mem_cons_self, Bool.true_and, decide_eq_true_eq] at hwhole
        simp only [List.length_cons, whole] at hwhole hlen
        omega
    · exact ih hin

/-- **Nothing is found where no `n` elements of the class stand together.** -/
theorem total_eq_zero_iff (hn : 0 < n) (text : List α) :
    total p n text = 0 ↔ ¬ ∃ run, run <:+: text ∧ n ≤ run.length ∧ ∀ a ∈ run, p a = true := by
  constructor
  · rintro hzero ⟨run, hin, hlen, hp⟩
    have h := le_total hin hlen (Nat.lt_of_lt_of_le hn hlen) hp
    omega
  · intro hnone
    have hnil : stretches p n text = [] := by
      rw [List.eq_nil_iff_forall_not_mem]
      intro run hrun
      obtain ⟨hin, hlen, -, hp⟩ := mem_stretches hrun
      exact hnone ⟨run, hin, hlen, hp⟩
    rw [total, hnil]
    rfl

theorem total_cases (text : List α) : total p n text = 0 ∨ n ≤ total p n text := by
  rw [total]
  cases h : stretches p n text with
  | nil => exact Or.inl rfl
  | cons run more =>
    have hrun := mem_stretches (p := p) (n := n) (h ▸ List.mem_cons_self : run ∈ stretches p n text)
    rw [List.map_cons, List.sum_cons]
    omega

theorem total_of_length_lt {text : List α} (hn : 0 < n) (h : text.length < n) :
    total p n text = 0 := by
  rw [total_eq_zero_iff hn]
  rintro ⟨run, hin, hlen, -⟩
  have := hin.length_le
  omega

end Greedy
