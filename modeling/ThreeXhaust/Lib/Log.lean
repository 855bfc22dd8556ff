import Mathlib.Data.List.Basic

/-!
# Logs

What happened in a run, as a list that only grows at its end. A rule says which entries may
follow which; `Lawful` says that every entry was allowed by those before it, so that an
ordering property of whole runs is a rule about one entry and its past.
-/

variable {ε : Type}

def Lawful (allowed : List ε → ε → Prop) (log : List ε) : Prop :=
  ∀ before e behind, log = before ++ e :: behind → allowed before e

variable {allowed : List ε → ε → Prop} {log : List ε}

theorem lawful_nil : Lawful allowed [] := by
  intro before e behind h
  simp at h

theorem Lawful.snoc (h : Lawful allowed log) {e : ε} (he : allowed log e) :
    Lawful allowed (log ++ [e]) := by
  intro before e' behind heq
  rcases List.eq_nil_or_concat behind with rfl | ⟨init, last, rfl⟩
  · obtain ⟨rfl, hlast⟩ := List.append_inj' heq rfl
    cases hlast
    exact he
  · have hsplit : log ++ [e] = (before ++ e' :: init) ++ [last] := by
      rw [heq]
      simp
    obtain ⟨hlog, -⟩ := List.append_inj' hsplit rfl
    exact h before e' init hlog

theorem Lawful.past (h : Lawful allowed log) {e : ε} (he : e ∈ log) :
    ∃ before, allowed before e ∧ before ⊆ log := by
  obtain ⟨before, behind, rfl⟩ := List.append_of_mem he
  exact ⟨before, h before e behind rfl, List.subset_append_left _ _⟩

theorem Lawful.pair (h : Lawful allowed log) {x y : ε} (hx : x ∈ log) (hy : y ∈ log)
    (hne : x ≠ y) :
    (∃ before, x ∈ before ∧ allowed before y) ∨ ∃ before, y ∈ before ∧ allowed before x := by
  obtain ⟨before, behind, rfl⟩ := List.append_of_mem hx
  rcases List.mem_append.mp hy with hy | hy
  · exact .inr ⟨before, hy, h before x behind rfl⟩
  · have hy := (List.mem_cons.mp hy).resolve_left (Ne.symm hne)
    obtain ⟨between, rest, rfl⟩ := List.append_of_mem hy
    refine .inl ⟨before ++ x :: between, by simp, h _ y rest ?_⟩
    rw [List.append_assoc, List.cons_append]
