import Mathlib.Data.List.Nodup
import Mathlib.Data.List.Flatten
import Mathlib.Data.List.Perm.Subperm
import Mathlib.Order.Basic

/-!
# Walks in a forest

A forest is a list of links from a parent to a child. `walk` goes down from a node with a stack, as
a loop does: it lists the children of what it takes from the stack and puts those that `enter`
lets in on it. Going up follows `parent`. In a forest (every node has one parent, and every link
leads to a higher rank) the walk down lists each node once, and exactly those from which the way
up leads to its start through nodes that may be entered.
-/

namespace Forest

variable {α : Type}

def children [DecidableEq α] (links : List (α × α)) (n : α) : List α :=
  (links.filter (·.1 = n)).map (·.2)

/-- The loop, with `fuel` for its turns and the top of the stack in front; `none` when the fuel does
not last. -/
@[grind =] def walk [DecidableEq α] (links : List (α × α)) (enter : α → Bool) : Nat → List α → Option (List α)
  | _, [] => some []
  | 0, _ :: _ => none
  | fuel + 1, n :: pending =>
    (walk links enter fuel (((children links n).filter enter).reverse ++ pending)).map
      (children links n ++ ·)

/-- The nodes that a walk from `start` enters. -/
inductive Entered (links : List (α × α)) (enter : α → Bool) (start : α) : α → Prop where
  | start : Entered links enter start start
  | step {n c : α} (h : Entered links enter start n) (hlink : (n, c) ∈ links)
      (henter : enter c = true) : Entered links enter start c

/-- From `n` the way up comes to `top`, and enters every node between them. -/
inductive Climbs (parent : α → Option α) (enter : α → Bool) : α → α → Prop where
  | base {n top : α} (h : parent n = some top) : Climbs parent enter n top
  | step {n p top : α} (h : parent n = some p) (henter : enter p = true)
      (hup : Climbs parent enter p top) : Climbs parent enter n top

structure IsForest (links : List (α × α)) (rank : α → Nat) : Prop where
  nodup : links.Nodup
  parent_unique : ∀ p q c, (p, c) ∈ links → (q, c) ∈ links → p = q
  rank_lt : ∀ p c, (p, c) ∈ links → rank p < rank c

variable {links : List (α × α)} {enter : α → Bool} {rank : α → Nat} {start n c : α}

variable {visited pending : List α}

section Visited

theorem Entered.rank_le (hf : IsForest links rank) (h : Entered links enter start n) :
    rank start ≤ rank n := by
  induction h with
  | start => exact Nat.le_refl _
  | step _ hlink _ ih => exact Nat.le_trans ih (Nat.le_of_lt (hf.rank_lt _ _ hlink))

/-! ## The loop's invariant -/

/-- What holds between the nodes taken from the stack so far and those on it. -/
structure Visits (links : List (α × α)) (enter : α → Bool) (start : α)
    (visited pending : List α) : Prop where
  nodup : (visited ++ pending).Nodup
  entered : ∀ n ∈ visited ++ pending, Entered links enter start n
  has_parent : ∀ n ∈ visited ++ pending, n = start ∨ ∃ p ∈ visited, (p, n) ∈ links
  start_mem : start ∈ visited ++ pending
  closed : ∀ n ∈ visited, ∀ c, (n, c) ∈ links → enter c = true → c ∈ visited ++ pending

theorem Visits.init : Visits links enter start [] [start] := by
  refine ⟨by simp, ?_, ?_, by simp, by simp⟩
  · intro n hn
    have heq : n = start := by simpa using hn
    rw [heq]
    exact .start
  · intro n hn
    exact .inl (by simpa using hn)

/-- No child of the node on top is on the stack or was on it: its only parent is that node, which
was not taken before. -/
theorem Visits.child_fresh (hf : IsForest links rank)
    (h : Visits links enter start visited (n :: pending)) (hlink : (n, c) ∈ links) :
    c ∉ visited ++ n :: pending := by
  intro hmem
  have hn : Entered links enter start n := h.entered n (by simp)
  rcases h.has_parent c hmem with rfl | ⟨p, hp, hpc⟩
  · have hlt := hf.rank_lt _ _ hlink
    have hle := hn.rank_le hf
    omega
  · have heq : p = n := hf.parent_unique _ _ _ hpc hlink
    subst heq
    have hnodup := h.nodup
    rw [List.nodup_append] at hnodup
    exact hnodup.2.2 p hp p (by simp) rfl

/-- When the stack is empty, exactly the nodes that a walk enters were taken from it. -/
theorem Visits.mem_iff_entered (h : Visits links enter start visited []) :
    n ∈ visited ↔ Entered links enter start n := by
  constructor
  · intro hn
    exact h.entered n (by simpa using hn)
  · intro hn
    induction hn with
    | start => simpa using h.start_mem
    | step _ hlink henter ih => simpa using h.closed _ ih _ hlink henter

/-- What is taken from the stack is the start or the child of some link, each once. -/
theorem Visits.length_le (h : Visits links enter start visited pending) :
    (visited ++ pending).length ≤ links.length + 1 := by
  have hsub : visited ++ pending ⊆ start :: links.map (·.2) := by
    intro n hn
    rcases h.has_parent n hn with rfl | ⟨p, _, hlink⟩
    · exact List.mem_cons_self
    · exact List.mem_cons_of_mem _ (List.mem_map.mpr ⟨(p, n), hlink, rfl⟩)
  simpa using (h.nodup.subperm hsub).length_le

end Visited

variable [DecidableEq α]

@[simp]
theorem mem_children : c ∈ children links n ↔ (n, c) ∈ links := by
  simp [children]

theorem nodup_children (h : links.Nodup) : (children links n).Nodup := by
  rw [children]
  apply List.Nodup.map_on
  · intro a ha b hb heq
    have ha1 : a.1 = n := by simpa using (List.mem_filter.mp ha).2
    have hb1 : b.1 = n := by simpa using (List.mem_filter.mp hb).2
    exact Prod.ext (ha1.trans hb1.symm) heq
  · exact h.filter _

theorem Visits.next (hf : IsForest links rank) (h : Visits links enter start visited (n :: pending)) :
    Visits links enter start (visited ++ [n])
      (((children links n).filter enter).reverse ++ pending) := by
  have hmem : ∀ m, m ∈ (visited ++ [n]) ++ (((children links n).filter enter).reverse ++ pending)
      ↔ m ∈ visited ++ n :: pending ∨ ((n, m) ∈ links ∧ enter m = true) := by
    intro m
    simp only [List.mem_append, List.mem_cons, List.not_mem_nil, or_false, List.mem_reverse,
      List.mem_filter, mem_children]
    tauto
  refine ⟨?_, ?_, ?_, ?_, ?_⟩
  · have hperm : List.Perm
        ((visited ++ [n]) ++ (((children links n).filter enter).reverse ++ pending))
        ((children links n).filter enter ++ (visited ++ n :: pending)) := by
      calc (visited ++ [n]) ++ (((children links n).filter enter).reverse ++ pending)
          = visited ++ [n] ++ ((children links n).filter enter).reverse ++ pending := by simp
        _ |>.Perm (((children links n).filter enter).reverse ++ (visited ++ [n]) ++ pending) :=
            List.Perm.append_right _ List.perm_append_comm
        _ |>.Perm ((children links n).filter enter ++ (visited ++ [n]) ++ pending) :=
            List.Perm.append_right _ (List.Perm.append_right _ (List.reverse_perm _))
        _ = (children links n).filter enter ++ (visited ++ n :: pending) := by simp
    rw [hperm.nodup_iff, List.nodup_append]
    refine ⟨(nodup_children hf.nodup).filter _, h.nodup, ?_⟩
    rintro a ha b hb rfl
    exact h.child_fresh hf (by simpa using (List.mem_filter.mp ha).1) hb
  · intro m hm
    rcases (hmem m).mp hm with hold | ⟨hlink, henter⟩
    · exact h.entered m hold
    · exact .step (h.entered n (by simp)) hlink henter
  · intro m hm
    rcases (hmem m).mp hm with hold | ⟨hlink, _⟩
    · rcases h.has_parent m hold with hstart | ⟨p, hp, hpm⟩
      · exact .inl hstart
      · exact .inr ⟨p, List.mem_append_left _ hp, hpm⟩
    · exact .inr ⟨n, by simp, hlink⟩
  · exact (hmem start).mpr (.inl h.start_mem)
  · intro m hm c hlink henter
    rw [hmem]
    rcases List.mem_append.mp hm with hold | hlast
    · exact .inl (h.closed m hold c hlink henter)
    · have heq : m = n := by simpa using hlast
      exact .inr ⟨heq ▸ hlink, henter⟩

/-- The loop from any of its states: with fuel for the links that are left it ends, and lists the
children of what it takes from the stack. -/
theorem walk_of_visits (hf : IsForest links rank) (fuel : Nat)
    (h : Visits links enter start visited pending)
    (hfuel : links.length + 1 ≤ fuel + visited.length) :
    ∃ more, Visits links enter start (visited ++ more) [] ∧
      walk links enter fuel pending = some (more.flatMap (children links)) := by
  induction fuel generalizing visited pending with
  | zero =>
    have hlen := h.length_le
    rw [List.length_append] at hlen
    have hnil : pending = [] := List.length_eq_zero_iff.mp (by omega)
    subst hnil
    exact ⟨[], by simpa using h, by simp [walk]⟩
  | succ fuel ih =>
    cases pending with
    | nil => exact ⟨[], by simpa using h, by simp [walk]⟩
    | cons n pending =>
      obtain ⟨more, hvisits, hwalk⟩ := ih (h.next hf) (by
        rw [List.length_append, List.length_singleton]
        omega)
      refine ⟨n :: more, by simpa using hvisits, ?_⟩
      rw [walk, hwalk]
      simp

theorem walk_of_le {fuel more : Nat} {nodes : List α} (hle : fuel ≤ more)
    (h : walk links enter fuel pending = some nodes) :
    walk links enter more pending = some nodes := by
  induction fuel generalizing more pending nodes with
  | zero =>
    cases pending with
    | nil => simpa [walk] using h
    | cons n pending => simp [walk] at h
  | succ fuel ih =>
    cases pending with
    | nil => simpa [walk] using h
    | cons n pending =>
      obtain ⟨more, rfl⟩ : ∃ k, more = k + 1 := ⟨more - 1, by omega⟩
      rw [walk, Option.map_eq_some_iff] at h
      obtain ⟨rest, hrest, hnodes⟩ := h
      rw [walk, ih (by omega) hrest, Option.map_some, hnodes]

/-- **The walk down**: it ends, lists no node twice, and lists exactly the children of the nodes it
enters. -/
theorem walk_exact (hf : IsForest links rank) (enter : α → Bool) (start : α) :
    ∃ nodes, (∀ fuel, links.length < fuel → walk links enter fuel [start] = some nodes) ∧
      nodes.Nodup ∧ ∀ c, c ∈ nodes ↔ ∃ n, Entered links enter start n ∧ (n, c) ∈ links := by
  obtain ⟨visited, hvisits, hwalk⟩ :=
    walk_of_visits hf (links.length + 1) Visits.init (by simp)
  rw [List.nil_append] at hvisits
  refine ⟨visited.flatMap (children links), ?_, ?_, ?_⟩
  · intro fuel hfuel
    exact walk_of_le hfuel hwalk
  · have hvisited : visited.Nodup := by simpa using hvisits.nodup
    rw [List.nodup_flatMap]
    refine ⟨fun n _ => nodup_children hf.nodup, hvisited.imp ?_⟩
    -- two nodes have no child in common, as a child has one parent
    intro a b hne c ha hb
    exact hne (hf.parent_unique _ _ _ (mem_children.mp ha) (mem_children.mp hb))
  · intro c
    simp only [List.mem_flatMap, mem_children, hvisits.mem_iff_entered]

/-! ## Down and up -/

section Inverse

omit [DecidableEq α]

variable {parent : α → Option α} {needed : α → Prop}

theorem Entered.climbs (hlinks : ∀ p c, (p, c) ∈ links → parent c = some p)
    (h : Entered links enter start n) (hlink : (n, c) ∈ links) : Climbs parent enter c start := by
  induction h generalizing c with
  | start => exact .base (hlinks _ _ hlink)
  | step _ hn henter ih => exact .step (hlinks _ _ hlink) henter (ih hn)

theorem Climbs.entered (hlinks : ∀ p c, parent c = some p → needed c → (p, c) ∈ links)
    (hup : ∀ p c, parent c = some p → needed c → needed p) (hc : needed c)
    (h : Climbs parent enter c start) : ∃ n, Entered links enter start n ∧ (n, c) ∈ links := by
  induction h with
  | base hparent => exact ⟨_, .start, hlinks _ _ hparent hc⟩
  | step hparent henter _ ih =>
    obtain ⟨n, hn, hlink⟩ := ih (hup _ _ hparent hc)
    exact ⟨_, .step hn hlink henter, hlinks _ _ hparent hc⟩

end Inverse

/-! ## Comparing ways up -/

section Compare

omit [DecidableEq α]

variable {parent parent' : α → Option α} {enter' : α → Bool} {top : α}

theorem Climbs.mono (hparent : ∀ n p, parent n = some p → parent' n = some p)
    (henter : ∀ n, enter n = true → enter' n = true) (h : Climbs parent enter n top) :
    Climbs parent' enter' n top := by
  induction h with
  | base hn => exact .base (hparent _ _ hn)
  | step hn hp _ ih => exact .step (hparent _ _ hn) (henter _ hp) ih

theorem climbs_congr {agree : α → Prop}
    (hagree : ∀ n, agree n → parent' n = parent n ∧ enter' n = enter n ∧
      ∀ p, parent n = some p → agree p) (hn : agree n) :
    Climbs parent enter n top ↔ Climbs parent' enter' n top := by
  constructor
  · intro h
    induction h with
    | base hup => exact .base ((hagree _ hn).1.trans hup)
    | step hup henter _ ih =>
      have hp := (hagree _ hn).2.2 _ hup
      exact .step ((hagree _ hn).1.trans hup) ((hagree _ hp).2.1.trans henter) (ih hp)
  · intro h
    induction h with
    | base hup => exact .base ((hagree _ hn).1.symm.trans hup)
    | step hup henter _ ih =>
      have hup' := (hagree _ hn).1.symm.trans hup
      have hp := (hagree _ hn).2.2 _ hup'
      exact .step hup' ((hagree _ hp).2.1.symm.trans henter) (ih hp)

theorem Climbs.trans {m : α} (h : Climbs parent enter n m) (hm : enter m = true)
    (h' : Climbs parent enter m top) : Climbs parent enter n top := by
  induction h with
  | base hup => exact .step hup hm h'
  | step hup henter _ ih => exact .step hup henter (ih hm h')

/-- A way up avoids the nodes that `stop` names, or passes one of them. -/
theorem Climbs.avoids (stop : α → Bool) (h : Climbs parent enter n top) :
    Climbs parent (fun m => enter m && !stop m) n top ∨
      ∃ m, stop m = true ∧ enter m = true ∧ Climbs parent enter n m ∧ Climbs parent enter m top := by
  induction h with
  | base hup => exact .inl (.base hup)
  | @step n p top hup henter hrest ih =>
    by_cases hstop : stop p = true
    · exact .inr ⟨p, hstop, henter, .base hup, hrest⟩
    · rcases ih with havoids | ⟨m, hm, hmenter, hpm, htop⟩
      · refine .inl (.step hup ?_ havoids)
        simp [henter, hstop]
      · exact .inr ⟨m, hm, hmenter, .step hup henter hpm, htop⟩

theorem Climbs.exists_parent (h : Climbs parent enter n top) : ∃ p, parent n = some p := by
  cases h with
  | base hup => exact ⟨_, hup⟩
  | step hup _ _ => exact ⟨_, hup⟩

end Compare

end Forest
