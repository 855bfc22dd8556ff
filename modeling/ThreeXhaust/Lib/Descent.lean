import Mathlib.Data.Set.Finite.Basic
import Mathlib.Data.Set.Finite.Lattice
import Mathlib.Order.WellFoundedSet

/-!
# Loops over a stack

`run step` is the loop that takes the top off a stack and puts what `step` lists in its place, as
long as there is one. It ends exactly where every way down from the stack ends (`ends_iff_acc`).
Where there are finitely many nodes, that means that none below the stack is below itself
(`acc_iff`).
-/

namespace Descent

open Relation

variable {σ τ : Type}

/-- The loop, with `fuel` for its turns; `none` when the fuel does not last. -/
@[grind =] def run (step : τ → σ → τ × List σ) : Nat → τ → List σ → Option τ
  | _, t, [] => some t
  | 0, _, _ :: _ => none
  | fuel + 1, t, s :: stack => run step fuel (step t s).1 ((step t s).2 ++ stack)

def Ends (step : τ → σ → τ × List σ) (t : τ) (stack : List σ) : Prop :=
  ∃ fuel, (run step fuel t stack).isSome

section Ends

variable {step : τ → σ → τ × List σ} {P : τ → Prop} {below : σ → σ → Prop}
  (hstep : ∀ t s, P t → P (step t s).1 ∧ ∀ c, c ∈ (step t s).2 ↔ below c s)

include hstep

theorem acc_of_run {fuel : Nat} {t : τ} {stack : List σ} (ht : P t)
    (h : (run step fuel t stack).isSome) : ∀ s ∈ stack, Acc below s := by
  induction fuel generalizing t stack with
  | zero =>
    cases stack with
    | nil => simp
    | cons s stack => cases h
  | succ fuel ih =>
    cases stack with
    | nil => simp
    | cons s stack =>
      obtain ⟨ht', hmem⟩ := hstep t s ht
      have hacc := ih ht' h
      intro x hx
      rcases List.mem_cons.mp hx with rfl | hx
      · exact .intro _ fun c hc => hacc c (List.mem_append_left _ ((hmem c).mpr hc))
      · exact hacc x (List.mem_append_right _ hx)

theorem ends_cons {s : σ} (hs : Acc below s) {stack : List σ}
    (hrest : ∀ t, P t → Ends step t stack) : ∀ t, P t → Ends step t (s :: stack) := by
  induction hs generalizing stack with
  | intro s _ ih =>
    intro t ht
    obtain ⟨ht', hmem⟩ := hstep t s ht
    have hlist : ∀ children : List σ, (∀ c ∈ children, below c s) →
        ∀ t, P t → Ends step t (children ++ stack) := by
      intro children hchildren
      induction children with
      | nil => exact hrest
      | cons c children ihc =>
        rw [List.forall_mem_cons] at hchildren
        exact ih c hchildren.1 (ihc hchildren.2)
    obtain ⟨fuel, hfuel⟩ := hlist _ (fun c hc => (hmem c).mp hc) _ ht'
    exact ⟨fuel + 1, hfuel⟩

/-- **The loop ends** exactly where every way down from the stack does. -/
theorem ends_iff_acc {t : τ} (ht : P t) {stack : List σ} :
    Ends step t stack ↔ ∀ s ∈ stack, Acc below s := by
  constructor
  · rintro ⟨fuel, h⟩
    exact acc_of_run hstep ht h
  · intro h
    suffices hall : ∀ t, P t → Ends step t stack from hall t ht
    induction stack with
    | nil => exact fun _ _ => ⟨0, rfl⟩
    | cons s stack ih =>
      rw [List.forall_mem_cons] at h
      exact ends_cons hstep h.1 (ih h.2)

end Ends

/-- Among finitely many nodes a way down ends unless it meets a node again. -/
theorem acc_iff {below : σ → σ → Prop} (hfinite : {c | ∃ s, below c s}.Finite) {s : σ} :
    Acc below s ↔ ∀ c, ReflTransGen below c s → ¬ TransGen below c c := by
  constructor
  · intro hs c hc
    have hacc : Acc (TransGen below) c := by
      rcases reflTransGen_iff_eq_or_transGen.mp hc with rfl | hc
      · exact hs.transGen
      · exact hs.transGen.inv hc
    induction hacc with
    | intro c _ ih => exact fun hself => ih c hself hc hself
  · intro h
    have hnodes : {c | ReflTransGen below c s}.Finite := by
      refine (hfinite.insert s).subset fun c hc => ?_
      rcases ReflTransGen.cases_head hc with rfl | ⟨p, hp, -⟩
      · exact .inl rfl
      · exact .inr ⟨p, hp⟩
    have := hnodes.to_subtype
    let r : {c | ReflTransGen below c s} → {c | ReflTransGen below c s} → Prop :=
      fun a b => TransGen below a.1 b.1
    have : IsTrans _ r := ⟨fun _ _ _ => .trans⟩
    have : Std.Irrefl r := ⟨fun a => h a.1 a.2⟩
    have hwf : WellFounded r := Finite.wellFounded_of_trans_of_irrefl r
    suffices hall : ∀ a : {c | ReflTransGen below c s}, Acc below a.1 from hall ⟨s, .refl⟩
    intro a
    induction a using hwf.induction with
    | _ a ih => exact .intro _ fun c hc => ih ⟨c, .head hc a.2⟩ (.single hc)

end Descent
