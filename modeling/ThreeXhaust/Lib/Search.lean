import Mathlib.Logic.Relation
import Mathlib.Data.List.Chain
import Mathlib.Data.List.Nodup
import Mathlib.Data.List.Perm.Subperm

/-!
# Searching a graph for a path

The search keeps a stack of nodes to visit and a map of what it reached, with where it came from. A
visit yields the nodes next to a node; it may leave out those that the memo of earlier visits says
were reached already. The search ends, and it returns a path to its goal exactly when there is one.
-/

namespace Search

variable {α σ : Type}

/-- What was reached and from where, newest first, the stack of what is still to be visited, and the
memo of the visits. -/
structure State (α σ : Type) where
  origin : List (α × Option α)
  pending : List α
  memo : σ

def State.reached (t : State α σ) : List α := t.origin.map (·.1)

section

variable [DecidableEq α]

def State.reach (via : Option α) (t : State α σ) (a : α) : State α σ :=
  if a ∈ t.reached then t
  else { t with origin := (a, via) :: t.origin, pending := a :: t.pending }

/-- The way that led to `a`; what a node was reached from was reached before it. -/
@[grind =] def path : List (α × Option α) → α → List α
  | [], a => [a]
  | (b, via) :: older, a =>
    if b = a then
      match via with
      | none => [a]
      | some c => path older c ++ [a]
    else path older a

def start (memo : σ) (items : List α) : State α σ :=
  items.foldl (State.reach none) ⟨[], [], memo⟩

def visit (next : σ → α → σ × List α) (t : State α σ) (a : α) : State α σ :=
  (next t.memo a).2.foldl (State.reach (some a)) { t with memo := (next t.memo a).1 }

/-- The loop, with `fuel` for its turns; `none` when it does not last. -/
@[grind =] def search (next : σ → α → σ × List α) (goal : α) : Nat → State α σ → Option (Option (List α))
  | 0, _ => none
  | fuel + 1, t =>
    match t.pending with
    | [] => some none
    | a :: pending =>
      if a = goal then some (some (path t.origin a))
      else search next goal fuel (visit next { t with pending } a)

end

/-! ## Reaching -/

structure IsPath (edge : α → α → Prop) (items : List α) (goal : α) (p : List α) : Prop where
  chain : p.IsChain edge
  head : ∃ a ∈ items, p.head? = some a
  last : p.getLast? = some goal

/-- What a search for `goal` returns: a path, or nothing when there is none. -/
def Answers (edge : α → α → Prop) (items : List α) (goal : α) : Option (List α) → Prop
  | some p => IsPath edge items goal p
  | none => ∀ a ∈ items, ¬Relation.ReflTransGen edge a goal

/-- `a` is an item, or an edge leads to it from something that was reached. -/
def Comes (edge : α → α → Prop) (items reached : List α) : Option α → α → Prop
  | none, a => a ∈ items
  | some b, a => b ∈ reached ∧ edge b a

@[grind =] def Traced (edge : α → α → Prop) (items : List α) : List (α × Option α) → Prop
  | [] => True
  | (a, via) :: older =>
    Comes edge items (older.map (·.1)) via a ∧ Traced edge items older

variable [DecidableEq α] {edge : α → α → Prop} {items scope : List α} {goal a b : α}
  {t : State α σ}

theorem path_isPath {origin : List (α × Option α)} (h : Traced edge items origin)
    (ha : a ∈ origin.map (·.1)) : IsPath edge items a (path origin a) := by
  induction origin generalizing a with
  | nil => cases ha
  | cons entry older ih =>
    obtain ⟨b, via⟩ := entry
    obtain ⟨hvia, holder⟩ := h
    by_cases hb : b = a
    · subst hb
      cases via with
      | none =>
        have hpath : path ((b, none) :: older) b = [b] := if_pos rfl
        rw [hpath]
        exact ⟨List.isChain_singleton _, ⟨b, hvia, rfl⟩, rfl⟩
      | some c =>
        have hpath : path ((b, some c) :: older) b = path older c ++ [b] := if_pos rfl
        rw [hpath]
        obtain ⟨hc, hedge⟩ := hvia
        have hbefore := ih holder hc
        obtain ⟨first, hfirst, hhead⟩ := hbefore.head
        refine ⟨?_, ⟨first, hfirst, by simp [hhead]⟩, by simp⟩
        refine List.isChain_append.mpr ⟨hbefore.chain, List.isChain_singleton _, ?_⟩
        intro x hx y hy
        rw [hbefore.last] at hx
        cases hx
        cases hy
        exact hedge
    · have hpath : path ((b, via) :: older) a = path older a := by
        rw [path.eq_def]
        exact if_neg hb
      rw [hpath]
      refine ih holder ?_
      rw [List.map_cons, List.mem_cons] at ha
      exact ha.resolve_left (Ne.symm hb)

structure Sound (edge : α → α → Prop) (items scope : List α) (t : State α σ) : Prop where
  nodup : t.reached.Nodup
  bounded : ∀ a ∈ t.reached, a ∈ scope
  pending : ∀ a ∈ t.pending, a ∈ t.reached
  traced : Traced edge items t.origin

variable {via : Option α}

theorem mem_reached_reach : b ∈ (t.reach via a).reached ↔ b ∈ t.reached ∨ b = a := by
  rw [State.reach]
  split
  · rename_i hmem
    exact ⟨.inl, fun h => h.elim id fun hb => hb ▸ hmem⟩
  · show b ∈ a :: t.reached ↔ _
    rw [List.mem_cons, or_comm]

theorem mem_pending_reach :
    b ∈ (t.reach via a).pending ↔ b ∈ t.pending ∨ b = a ∧ a ∉ t.reached := by
  rw [State.reach]
  split
  · rename_i hmem
    exact ⟨.inl, fun h => h.elim id fun hb => absurd hmem hb.2⟩
  · rename_i hmem
    show b ∈ a :: t.pending ↔ _
    rw [List.mem_cons, or_comm]
    exact or_congr_right ⟨fun hb => ⟨hb, hmem⟩, And.left⟩

theorem memo_reach : (t.reach via a).memo = t.memo := by
  rw [State.reach]
  split <;> rfl

def work (scope : List α) (t : State α σ) : Nat :=
  scope.length - t.origin.length + t.pending.length

omit [DecidableEq α] in
theorem length_le (h : Sound edge items scope t) : t.origin.length ≤ scope.length := by
  have hsub := (h.nodup.subperm h.bounded).length_le
  rwa [State.reached, List.length_map] at hsub

theorem Sound.reach (h : Sound edge items scope t) (ha : a ∈ scope)
    (hvia : Comes edge items t.reached via a) :
    Sound edge items scope (t.reach via a) ∧ work scope (t.reach via a) = work scope t := by
  rw [State.reach]
  split
  · exact ⟨h, rfl⟩
  · rename_i hfresh
    have hsound : Sound edge items scope
        { t with origin := (a, via) :: t.origin, pending := a :: t.pending } := by
      refine ⟨List.nodup_cons.mpr ⟨hfresh, h.nodup⟩, fun b hb => ?_, fun b hb => ?_,
        ⟨hvia, h.traced⟩⟩
      · rcases List.mem_cons.mp hb with rfl | hb
        · exact ha
        · exact h.bounded b hb
      · rcases List.mem_cons.mp hb with rfl | hb
        · exact List.mem_cons_self
        · exact List.mem_cons_of_mem _ (h.pending b hb)
    refine ⟨hsound, ?_⟩
    have hle := length_le hsound
    simp only [work, List.length_cons] at hle ⊢
    omega

theorem Sound.reachAll {nodes : List α} (h : Sound edge items scope t)
    (hnodes : ∀ a ∈ nodes, a ∈ scope) (hvia : ∀ a ∈ nodes, Comes edge items t.reached via a) :
    Sound edge items scope (nodes.foldl (State.reach via) t) ∧
      work scope (nodes.foldl (State.reach via) t) = work scope t ∧
      (nodes.foldl (State.reach via) t).memo = t.memo ∧
      (∀ b, b ∈ (nodes.foldl (State.reach via) t).reached ↔ b ∈ t.reached ∨ b ∈ nodes) ∧
      ∀ b, b ∈ (nodes.foldl (State.reach via) t).pending ↔
        b ∈ t.pending ∨ b ∈ nodes ∧ b ∉ t.reached := by
  induction nodes generalizing t with
  | nil => exact ⟨h, rfl, rfl, by simp, by simp⟩
  | cons a nodes ih =>
    rw [List.foldl_cons]
    obtain ⟨hsound, hwork⟩ := h.reach (hnodes a List.mem_cons_self) (hvia a List.mem_cons_self)
    have hrest : ∀ b ∈ nodes, Comes edge items (t.reach via a).reached via b := by
      intro b hb
      have hcomes := hvia b (List.mem_cons_of_mem _ hb)
      cases via with
      | none => exact hcomes
      | some c => exact ⟨mem_reached_reach.mpr (.inl hcomes.1), hcomes.2⟩
    obtain ⟨hall, hwork', hmemo, hreached, hpending⟩ :=
      ih hsound (fun b hb => hnodes b (List.mem_cons_of_mem _ hb)) hrest
    refine ⟨hall, hwork'.trans hwork, hmemo.trans memo_reach, fun b => ?_, fun b => ?_⟩
    · rw [hreached, mem_reached_reach, List.mem_cons, or_assoc]
    · rw [hpending, mem_pending_reach, mem_reached_reach, List.mem_cons]
      by_cases hb : b = a
      · subst hb
        by_cases hmem : b ∈ t.reached <;> simp [hmem]
      · simp [hb]

/-! ## The search -/

variable {next : σ → α → σ × List α} {promise : σ → (α → Prop) → Prop}

/-- What the visits of a search have to be: the nodes next to a node, but for those that the memo
promises to be reached. -/
structure Visits (edge : α → α → Prop) (scope : List α) (next : σ → α → σ × List α)
    (promise : σ → (α → Prop) → Prop) : Prop where
  bounded : ∀ m a, ∀ b ∈ (next m a).2, b ∈ scope
  sound : ∀ m a, ∀ b ∈ (next m a).2, edge a b
  mono : ∀ m (R R' : α → Prop), (∀ a, R a → R' a) → promise m R → promise m R'
  kept : ∀ m a (R : α → Prop), promise m R →
    promise (next m a).1 (fun b => R b ∨ b ∈ (next m a).2)
  complete : ∀ m a b (R : α → Prop), promise m R → edge a b → R b ∨ b ∈ (next m a).2

def Closed (edge : α → α → Prop) (goal : α) (t : State α σ) : Prop :=
  ∀ a ∈ t.reached, a ∉ t.pending → a ≠ goal ∧ ∀ b, edge a b → b ∈ t.reached

theorem search_of_closed (hv : Visits edge scope next promise) (fuel : Nat)
    (hfuel : work scope t < fuel) (hs : Sound edge items scope t)
    (hm : promise t.memo (· ∈ t.reached)) (hc : Closed edge goal t)
    (hitems : ∀ a ∈ items, a ∈ t.reached) :
    ∃ result, search next goal fuel t = some result ∧ Answers edge items goal result := by
  induction fuel generalizing t with
  | zero => exact absurd hfuel (Nat.not_lt_zero _)
  | succ fuel ih =>
    rw [search]
    cases hpending : t.pending with
    | nil =>
      refine ⟨none, rfl, fun a ha hpath => ?_⟩
      -- everything reached was visited, so a path from an item stays in it
      have hvisited : ∀ b ∈ t.reached, b ≠ goal ∧ ∀ c, edge b c → c ∈ t.reached :=
        fun b hb => hc b hb (by rw [hpending]; exact List.not_mem_nil)
      have hstays : ∀ b, Relation.ReflTransGen edge a b → b ∈ t.reached := by
        intro b hb
        induction hb with
        | refl => exact hitems a ha
        | tail _ hedge hbefore => exact (hvisited _ hbefore).2 _ hedge
      exact (hvisited goal (hstays goal hpath)).1 rfl
    | cons a pending =>
      have ha : a ∈ t.reached := hs.pending a (by rw [hpending]; exact List.mem_cons_self)
      by_cases hgoal : a = goal
      · subst hgoal
        exact ⟨_, if_pos rfl, path_isPath hs.traced ha⟩
      simp only [if_neg hgoal]
      -- the state in which `a` is visited
      let t' : State α σ := { t with pending := pending, memo := (next t.memo a).1 }
      have hs' : Sound edge items scope t' :=
        ⟨hs.nodup, hs.bounded,
          fun b hb => hs.pending b (by rw [hpending]; exact List.mem_cons_of_mem _ hb), hs.traced⟩
      have hcomes : ∀ b ∈ (next t.memo a).2, Comes edge items t'.reached (some a) b :=
        fun b hb => ⟨ha, hv.sound t.memo a b hb⟩
      obtain ⟨hsound, hwork, hmemo, hreached, hpend⟩ :=
        hs'.reachAll (hv.bounded t.memo a) hcomes
      show ∃ result, search next goal fuel ((next t.memo a).2.foldl (State.reach (some a)) t') =
        some result ∧ _
      refine ih ?_ hsound ?_ ?_ fun b hb => (hreached b).mpr (.inl (hitems b hb))
      · have hless : work scope t' < work scope t := by
          simp only [work, hpending, List.length_cons, t']
          omega
        rw [hwork]
        omega
      · refine hmemo ▸ hv.mono _ _ _ (fun b hb => ?_) (hv.kept t.memo a _ hm)
        exact (hreached b).mpr hb
      · intro b hb hnot
        rw [hpend, not_or] at hnot
        have hold : b ∈ t.reached := by
          rcases (hreached b).mp hb with hold | hnew
          · exact hold
          · by_contra hfresh
            exact hnot.2 ⟨hnew, hfresh⟩
        by_cases hba : b = a
        · subst hba
          refine ⟨hgoal, fun c hedge => (hreached c).mpr ?_⟩
          exact hv.complete t.memo b c _ hm hedge
        · have hbefore := hc b hold (by
            rw [hpending, List.mem_cons, not_or]
            exact ⟨hba, hnot.1⟩)
          exact ⟨hbefore.1, fun c hedge => (hreached c).mpr (.inl (hbefore.2 c hedge))⟩

/-- **The search** ends, and returns a path exactly when there is one from an item to the goal. -/
theorem search_exact (hv : Visits edge scope next promise) {memo : σ}
    (hmemo : ∀ R, promise memo R) (hitems : ∀ a ∈ items, a ∈ scope) (goal : α) (fuel : Nat)
    (hfuel : scope.length < fuel) :
    ∃ result, search next goal fuel (start memo items) = some result ∧
      Answers edge items goal result := by
  have hempty : Sound edge items scope (⟨[], [], memo⟩ : State α σ) :=
    ⟨List.nodup_nil, by simp [State.reached], by simp, trivial⟩
  have hcomes : ∀ a ∈ items, Comes edge items (⟨[], [], memo⟩ : State α σ).reached none a :=
    fun a ha => ha
  obtain ⟨hsound, hwork, hmemo', hreached, hpending⟩ := hempty.reachAll hitems hcomes
  refine search_of_closed hv fuel ?_ hsound ?_ ?_ fun a ha => (hreached a).mpr (.inr ha)
  · have hstart : work scope (⟨[], [], memo⟩ : State α σ) = scope.length := by
      simp [work]
    exact (hwork.trans hstart) ▸ hfuel
  · rw [start, hmemo']
    exact hmemo _
  · intro a ha hnot
    rcases (hreached a).mp ha with hold | hnew
    · cases hold
    · exact absurd ((hpending a).mpr (.inr ⟨hnew, by simp [State.reached]⟩)) hnot

omit [DecidableEq α] in
theorem IsPath.reflTransGen {p : List α} (h : IsPath edge items goal p) :
    ∃ a ∈ items, Relation.ReflTransGen edge a goal := by
  obtain ⟨a, ha, hhead⟩ := h.head
  refine ⟨a, ha, ?_⟩
  have hlast := h.last
  have hchain := h.chain
  clear h ha
  induction p generalizing a with
  | nil => cases hhead
  | cons b rest ih =>
    obtain rfl : b = a := by simpa using hhead
    cases rest with
    | nil =>
      obtain rfl : b = goal := by simpa using hlast
      exact .refl
    | cons c rest =>
      rw [List.isChain_cons_cons] at hchain
      exact .head hchain.1 (ih c rfl (by simpa using hlast) hchain.2)

end Search
