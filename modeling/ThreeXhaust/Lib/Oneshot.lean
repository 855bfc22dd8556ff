import Mathlib.Data.List.Perm.Basic
import Mathlib.Data.List.Range

/-!
# An answer given once

Waits for an answer that comes at most once: a wait made before the answer gets it when it comes, a
later one at once, and a wait its own caller gives up gets nothing. `Once` says that each wait is in
exactly one of these places, and that all get the same answer; every operation keeps it.
-/

/-- A one-shot answer and the waits for it, numbered as they are made. -/
structure Oneshot (α : Type) where
  settled : Option α := none
  waiting : List Nat := []
  /-- The answers given, each with its wait. -/
  given : List (Nat × α) := []
  /-- The waits their callers gave up. -/
  left : List Nat := []
  next : Nat := 0

namespace Oneshot

variable {α : Type} {o : Oneshot α}

def settle (o : Oneshot α) (a : α) : Oneshot α :=
  match o.settled with
  | some _ => o
  | none =>
    { o with
      settled := some a
      waiting := []
      given := o.given ++ o.waiting.map fun w => (w, a) }

def wait (o : Oneshot α) : Oneshot α :=
  match o.settled with
  | some a => { o with given := o.given ++ [(o.next, a)], next := o.next + 1 }
  | none => { o with waiting := o.waiting ++ [o.next], next := o.next + 1 }

/-- The caller of wait `w` gives it up. -/
def leave (o : Oneshot α) (w : Nat) : Oneshot α :=
  if w ∈ o.waiting then { o with waiting := o.waiting.erase w, left := o.left ++ [w] } else o

/-- Each wait is open, answered or given up, and only one of these; all got the one answer. -/
structure Once (o : Oneshot α) : Prop where
  places : (o.waiting ++ o.given.map Prod.fst ++ o.left).Perm (List.range o.next)
  closed : o.settled.isSome → o.waiting = []
  same : ∀ g ∈ o.given, o.settled = some g.2

theorem Once.new : Once ({} : Oneshot α) :=
  ⟨.refl _, nofun, nofun⟩

@[simp] theorem settle_isSome (o : Oneshot α) (a : α) : (o.settle a).settled.isSome := by
  unfold settle
  split
  · next ha => rw [ha]; rfl
  · rfl

theorem settle_settle (o : Oneshot α) (a b : α) : (o.settle a).settle b = o.settle a := by
  cases h : o.settled with
  | none => simp only [settle, h]
  | some a' => simp only [settle, h]

theorem Once.settle (h : o.Once) (a : α) : (o.settle a).Once := by
  unfold Oneshot.settle
  split
  · exact h
  · next hnone =>
    have hgiven : o.given = [] := by
      cases hg : o.given with
      | nil => rfl
      | cons g rest =>
        have := h.same g (hg ▸ List.mem_cons_self)
        rw [hnone] at this
        cases this
    refine ⟨?_, fun _ => rfl, ?_⟩
    · have hplaces := h.places
      rw [hgiven] at hplaces ⊢
      simpa [Function.comp_def] using hplaces
    · intro g hg
      rw [hgiven, List.nil_append] at hg
      obtain ⟨w, -, rfl⟩ := List.mem_map.mp hg
      rfl

theorem Once.wait (h : o.Once) : o.wait.Once := by
  unfold Oneshot.wait
  split
  · next a ha =>
    have hwaiting : o.waiting = [] := h.closed (by rw [ha]; rfl)
    refine ⟨?_, fun _ => hwaiting, ?_⟩
    · have hplaces := h.places
      rw [hwaiting] at hplaces
      simp only [hwaiting, List.map_append, List.map_cons, List.map_nil, List.nil_append,
        List.append_assoc, List.range_succ]
      have hswap : (o.given.map Prod.fst ++ ([o.next] ++ o.left)).Perm
          ((o.given.map Prod.fst ++ o.left) ++ [o.next]) := by
        rw [List.append_assoc]
        exact List.Perm.append_left _ List.perm_append_comm
      exact hswap.trans (List.Perm.append_right _ (by simpa using hplaces))
    · intro g hg
      rcases List.mem_append.mp hg with hg | hg
      · exact h.same g hg
      · cases List.mem_singleton.mp hg
        exact ha
  · next hnone =>
    refine ⟨?_, ?_, h.same⟩
    · simp only [List.append_assoc, List.range_succ]
      have hswap : (o.waiting ++ ([o.next] ++ (o.given.map Prod.fst ++ o.left))).Perm
          ((o.waiting ++ (o.given.map Prod.fst ++ o.left)) ++ [o.next]) := by
        rw [List.append_assoc]
        exact List.Perm.append_left _ List.perm_append_comm
      exact hswap.trans (List.Perm.append_right _ (by simpa using h.places))
    · intro hsome
      rw [show _ = o.settled from rfl, hnone] at hsome
      cases hsome

theorem Once.leave (h : o.Once) (w : Nat) : (o.leave w).Once := by
  unfold Oneshot.leave
  split
  · next hw =>
    refine ⟨?_, fun hsome => ?_, h.same⟩
    · -- the wait moves from the open ones to the ones given up
      have hmove : (o.waiting.erase w ++ o.given.map Prod.fst ++ (o.left ++ [w])).Perm
          (w :: (o.waiting.erase w ++ o.given.map Prod.fst ++ o.left)) := by
        rw [← List.append_assoc]
        exact List.perm_append_comm
      refine (hmove.trans ?_).trans h.places
      rw [← List.cons_append, ← List.cons_append]
      exact ((List.perm_cons_erase hw).symm.append_right _).append_right _
    · have hnone := h.closed hsome
      rw [hnone] at hw
      cases hw
  · exact h

@[simp] theorem wait_settled (o : Oneshot α) : o.wait.settled = o.settled := by
  unfold wait
  split <;> rfl

@[simp] theorem leave_settled (o : Oneshot α) (w : Nat) : (o.leave w).settled = o.settled := by
  unfold leave
  split <;> rfl

theorem leave_waiting_nil (w : Nat) (h : o.waiting = []) : (o.leave w).waiting = [] := by
  unfold leave
  rw [h]
  exact h

end Oneshot
