import Mathlib.Data.List.Basic
import Mathlib.Order.WellFounded

/-!
# Runs of a system

A system is a state and a total `step` on it; any party may take the next step, so a run is
any sequence of inputs. `Reachable` is parametrised by a guard on steps, so that "every run
whose steps all satisfy the guard" and "every run" are the same notion.
-/

namespace Run

variable {σ ι : Type}

/-- The states reached from `init` by steps that satisfy `guard` where they are taken. -/
inductive Reachable (step : σ → ι → σ) (guard : σ → ι → Prop) (init : σ) : σ → Prop where
  | init : Reachable step guard init init
  | step {s : σ} (i : ι) (h : Reachable step guard init s) (hg : guard s i) :
      Reachable step guard init (step s i)

def always : σ → ι → Prop := fun _ _ => True

variable {step : σ → ι → σ} {guard : σ → ι → Prop} {init : σ}

/-- **The invariant rule**: what holds initially and is kept by every guarded step holds in
every state reached. -/
theorem Reachable.invariant (P : σ → Prop) (h0 : P init)
    (hstep : ∀ s i, P s → guard s i → P (step s i)) {s : σ}
    (h : Reachable step guard init s) : P s := by
  induction h with
  | init => exact h0
  | step i _ hg ih => exact hstep _ i ih hg

/-- **The relation rule**: a reflexive, transitive relation that every step keeps, from states
satisfying an invariant, holds between the ends of a run. -/
theorem Reachable.relation (P : σ → Prop) (R : σ → σ → Prop) (hrefl : ∀ s, R s s)
    (htrans : ∀ a b c, R a b → R b c → R a c)
    (hP : ∀ s i, P s → guard s i → P (step s i))
    (hR : ∀ s i, P s → guard s i → R s (step s i)) (h0 : P init) {s : σ}
    (h : Reachable step guard init s) : R init s := by
  induction h with
  | init => exact hrefl init
  | step i hs hi ih => exact htrans _ _ _ ih (hR _ i (hs.invariant P h0 hP) hi)

/-! ## The states along a list of inputs -/

/-- The state after the first `n` inputs. -/
def after (step : σ → ι → σ) (init : σ) (inputs : List ι) (n : Nat) : σ :=
  (inputs.take n).foldl step init

variable {inputs : List ι} {n : Nat}

theorem after_succ {i : ι} (h : inputs[n]? = some i) :
    after step init inputs (n + 1) = step (after step init inputs n) i := by
  rw [after, List.take_add_one, h, List.foldl_append]
  rfl

theorem after_succ_of_length_le (h : inputs[n]? = none) :
    after step init inputs (n + 1) = after step init inputs n := by
  rw [after, List.take_add_one, h, Option.toList_none, List.append_nil, after]

theorem after_reachable_of (hguard : ∀ s, ∀ i ∈ inputs, guard s i) (n : Nat) :
    Reachable step guard init (after step init inputs n) := by
  induction n with
  | zero => exact .init
  | succ n ih =>
    cases h : inputs[n]? with
    | none =>
      rw [after_succ_of_length_le h]
      exact ih
    | some i =>
      rw [after_succ h]
      exact .step i ih (hguard _ i (List.mem_of_getElem? h))

theorem after_reachable (n : Nat) :
    Reachable step always init (after step init inputs n) :=
  after_reachable_of (fun _ _ _ => trivial) n

/-- Every input of the list satisfies the guard where it is taken. -/
@[grind =] def Guarded (step : σ → ι → σ) (guard : σ → ι → Prop) : σ → List ι → Prop
  | _, [] => True
  | s, i :: inputs => guard s i ∧ Guarded step guard (step s i) inputs

instance [∀ s i, Decidable (guard s i)] (s : σ) (inputs : List ι) :
    Decidable (Guarded step guard s inputs) := by
  induction inputs generalizing s with
  | nil => exact isTrue trivial
  | cons i inputs ih => exact inferInstanceAs (Decidable (_ ∧ _))

theorem Guarded.mono {guard' : σ → ι → Prop} (hg : ∀ s i, guard s i → guard' s i) {s : σ}
    (h : Guarded step guard s inputs) : Guarded step guard' s inputs := by
  induction inputs generalizing s with
  | nil => trivial
  | cons i inputs ih => exact ⟨hg s i h.1, ih h.2⟩

theorem reachable_foldl {s : σ} (hs : Reachable step guard init s)
    (h : Guarded step guard s inputs) : Reachable step guard init (inputs.foldl step s) := by
  induction inputs generalizing s with
  | nil => exact hs
  | cons i inputs ih => exact ih (.step i hs h.1) h.2

/-! ## Runs without end -/

/-- The state before the `n`-th of infinitely many inputs. -/
@[grind =] def along (step : σ → ι → σ) (init : σ) (inputs : Nat → ι) : Nat → σ
  | 0 => init
  | n + 1 => step (along step init inputs n) (inputs n)

theorem along_reachable (inputs : Nat → ι) (n : Nat) :
    Reachable step always init (along step init inputs n) := by
  induction n with
  | zero => exact .init
  | succ n ih => exact .step (inputs n) ih trivial

/-- **The progress rule**: when no step takes the rank up and the steps that happen again and again
take it down, the goal is reached. -/
theorem eventually {β : Type} [PartialOrder β] [WellFoundedLT β] (P goal : σ → Prop) (rank : σ → β)
    (moves : σ → ι → Prop) (hP : ∀ s i, P s → P (step s i))
    (hle : ∀ s i, P s → ¬ goal s → goal (step s i) ∨ rank (step s i) ≤ rank s)
    (hlt : ∀ s i, P s → moves s i → ¬ goal s → goal (step s i) ∨ rank (step s i) < rank s)
    (inputs : Nat → ι) (h0 : P init)
    (hfair : ∀ n, ∃ m, n ≤ m ∧ moves (along step init inputs m) (inputs m)) :
    ∃ n, goal (along step init inputs n) := by
  by_contra hnever
  have hnot : ∀ n, ¬ goal (along step init inputs n) := fun n hgoal => hnever ⟨n, hgoal⟩
  have hinv : ∀ n, P (along step init inputs n) := by
    intro n
    induction n with
    | zero => exact h0
    | succ n ih => exact hP _ _ ih
  have hdown : ∀ n m, n ≤ m →
      rank (along step init inputs m) ≤ rank (along step init inputs n) := by
    intro n m hnm
    induction hnm with
    | refl => exact le_refl _
    | step _ ih =>
      rename_i m _
      have hstep := (hle _ (inputs m) (hinv m) (hnot m)).resolve_left (hnot (m + 1))
      exact hstep.trans ih
  -- the rank would fall for ever
  have hfall : ∀ b : β, ∀ n, rank (along step init inputs n) ≠ b := by
    intro b
    induction b using WellFoundedLT.induction with
    | ind b ih =>
      intro n hb
      obtain ⟨m, hnm, hmoves⟩ := hfair n
      have hstep := (hlt _ _ (hinv m) hmoves (hnot m)).resolve_left (hnot (m + 1))
      have hless : rank (along step init inputs (m + 1)) < b :=
        lt_of_lt_of_le hstep (hb ▸ hdown n m hnm)
      exact ih _ hless (m + 1) rfl
  exact hfall _ 0 rfl

/-! ## What a run answers -/

@[grind =] def replies {ρ : Type} (reply : σ → ι → ρ) (step : σ → ι → σ) (init : σ) : List ι → List ρ
  | [] => []
  | i :: rest => reply init i :: replies reply step (step init i) rest

/-- **The simulation rule**: when related states give related answers and related next states,
related states answer alike for ever. -/
theorem replies_related {ρ : Type} {reply : σ → ι → ρ} (R : σ → σ → Prop) (Q : ρ → ρ → Prop)
    (hstep : ∀ s t i, R s t → Q (reply s i) (reply t i) ∧ R (step s i) (step t i)) {s t : σ}
    (h : R s t) (inputs : List ι) :
    List.Forall₂ Q (replies reply step s inputs) (replies reply step t inputs) := by
  induction inputs generalizing s t with
  | nil => exact .nil
  | cons i rest ih =>
    obtain ⟨hreply, hnext⟩ := hstep s t i h
    exact .cons hreply (ih hnext)

end Run
