import Mathlib.Data.List.Basic
import Mathlib.Tactic.Common

/-!
# Edit scripts and furthest reaching paths

An edit script turns one list of lines into another by keeping, removing and adding lines. It is a
path of the edit graph: a kept line moves along a diagonal, a removed or added one changes the
diagonal and costs one. The grid is taken without its right and lower borders, as a search that
does not stop at them sees it.
-/

namespace EditScript

inductive Kind where
  | equal
  | remove
  | add
deriving DecidableEq

structure Change (α : Type) where
  kind : Kind
  line : α
deriving DecidableEq

variable {α : Type}

/-! ## Scripts -/

def oldLines (changes : List (Change α)) : List α :=
  (changes.filter (·.kind ≠ .add)).map Change.line

def newLines (changes : List (Change α)) : List α :=
  (changes.filter (·.kind ≠ .remove)).map Change.line

def cost (changes : List (Change α)) : Nat := changes.countP (·.kind ≠ .equal)

structure Script (a b : List α) (changes : List (Change α)) : Prop where
  old : oldLines changes = a
  new : newLines changes = b

@[simp] theorem oldLines_append (cs ds : List (Change α)) :
    oldLines (cs ++ ds) = oldLines cs ++ oldLines ds := by
  simp [oldLines]

@[simp] theorem newLines_append (cs ds : List (Change α)) :
    newLines (cs ++ ds) = newLines cs ++ newLines ds := by
  simp [newLines]

@[simp] theorem cost_append (cs ds : List (Change α)) : cost (cs ++ ds) = cost cs + cost ds :=
  List.countP_append

@[simp] theorem oldLines_equal (l : α) (cs : List (Change α)) :
    oldLines (⟨.equal, l⟩ :: cs) = l :: oldLines cs := by simp [oldLines]

@[simp] theorem oldLines_remove (l : α) (cs : List (Change α)) :
    oldLines (⟨.remove, l⟩ :: cs) = l :: oldLines cs := by simp [oldLines]

@[simp] theorem oldLines_add (l : α) (cs : List (Change α)) :
    oldLines (⟨.add, l⟩ :: cs) = oldLines cs := by simp [oldLines]

@[simp] theorem newLines_equal (l : α) (cs : List (Change α)) :
    newLines (⟨.equal, l⟩ :: cs) = l :: newLines cs := by simp [newLines]

@[simp] theorem newLines_remove (l : α) (cs : List (Change α)) :
    newLines (⟨.remove, l⟩ :: cs) = newLines cs := by simp [newLines]

@[simp] theorem newLines_add (l : α) (cs : List (Change α)) :
    newLines (⟨.add, l⟩ :: cs) = l :: newLines cs := by simp [newLines]

@[simp] theorem cost_equal (l : α) (cs : List (Change α)) :
    cost (⟨.equal, l⟩ :: cs) = cost cs := by simp [cost]

@[simp] theorem cost_remove (l : α) (cs : List (Change α)) :
    cost (⟨.remove, l⟩ :: cs) = cost cs + 1 := by simp [cost]

@[simp] theorem cost_add (l : α) (cs : List (Change α)) :
    cost (⟨.add, l⟩ :: cs) = cost cs + 1 := by simp [cost]

@[simp] theorem oldLines_nil : oldLines ([] : List (Change α)) = [] := rfl

@[simp] theorem newLines_nil : newLines ([] : List (Change α)) = [] := rfl

/-! ## Paths -/

def Same (a b : List α) (x y : Nat) : Prop := x < a.length ∧ y < b.length ∧ a[x]? = b[y]?

inductive Reach (a b : List α) : Nat → Nat → Nat → Prop
  | start : Reach a b 0 0 0
  | slide {d x y : Nat} (h : Reach a b d x y) (hsame : Same a b x y) : Reach a b d (x + 1) (y + 1)
  | remove {d x y : Nat} (h : Reach a b d x y) : Reach a b (d + 1) (x + 1) y
  | add {d x y : Nat} (h : Reach a b d x y) : Reach a b (d + 1) x (y + 1)

variable {a b : List α}

variable {d x y : Nat}

theorem Reach.script (h : Reach a b d x y) (changes : List (Change α))
    (ha : oldLines changes <+: a.drop x) (hb : newLines changes <+: b.drop y) :
    Reach a b (d + cost changes) (x + (oldLines changes).length)
      (y + (newLines changes).length) := by
  -- the first line of what is left is where the path stands
  have hhead {l : α} {lines rest : List α} {n : Nat} (hstarts : l :: rest <+: lines.drop n) :
      n < lines.length ∧ lines[n]? = some l ∧ rest <+: lines.drop (n + 1) := by
    obtain ⟨tail, htail⟩ := hstarts
    have hget : lines[n]? = some l := by
      have hzero : (lines.drop n)[0]? = some l := by rw [← htail]; rfl
      simpa using hzero
    refine ⟨(List.getElem?_eq_some_iff.mp hget).1, hget, tail, ?_⟩
    rw [← List.drop_drop, ← htail]
    rfl
  induction changes generalizing d x y with
  | nil => exact h
  | cons change rest ih =>
    obtain ⟨kind, l⟩ := change
    cases kind with
    | equal =>
      rw [oldLines_equal] at ha
      rw [newLines_equal] at hb
      obtain ⟨hx, hax, ha⟩ := hhead ha
      obtain ⟨hy, hby, hb⟩ := hhead hb
      have hnext := ih (h.slide ⟨hx, hy, hax.trans hby.symm⟩) ha hb
      simpa [Nat.add_comm, Nat.add_left_comm, Nat.add_assoc] using hnext
    | remove =>
      rw [oldLines_remove] at ha
      rw [newLines_remove] at hb
      obtain ⟨-, -, ha⟩ := hhead ha
      have hnext := ih h.remove ha hb
      simpa [Nat.add_comm, Nat.add_left_comm, Nat.add_assoc] using hnext
    | add =>
      rw [oldLines_add] at ha
      rw [newLines_add] at hb
      obtain ⟨-, -, hb⟩ := hhead hb
      have hnext := ih h.add ha hb
      simpa [Nat.add_comm, Nat.add_left_comm, Nat.add_assoc] using hnext

/-- **A script is a path** to the corner. -/
theorem Reach.of_script {changes : List (Change α)} (h : Script a b changes) :
    Reach a b (cost changes) a.length b.length := by
  have hpath := Reach.start.script changes (a := a) (b := b) (by simp [h.old]) (by simp [h.new])
  simpa [h.old, h.new] using hpath

theorem Reach.all (a b : List α) : Reach a b (a.length + b.length) a.length b.length := by
  have hremove : ∀ n, Reach a b n n 0 := by
    intro n
    induction n with
    | zero => exact .start
    | succ n ih => exact ih.remove
  have hadd : ∀ m, Reach a b (a.length + m) a.length m := by
    intro m
    induction m with
    | zero => exact hremove a.length
    | succ m ih => exact ih.add
  exact hadd b.length

theorem Reach.diagonal (h : Reach a b d x y) : x ≤ y + d ∧ y ≤ x + d ∧ (x + y + d) % 2 = 0 := by
  induction h with
  | start => simp
  | slide _ _ ih => omega
  | remove _ ih => omega
  | add _ ih => omega

/-- **A path that leaves the grid** has passed the border with fewer edits. -/
theorem Reach.clamp (h : Reach a b d x y) :
    ∃ d', Reach a b d' (min x a.length) (min y b.length)
      ∧ d' + (x - a.length) + (y - b.length) ≤ d := by
  induction h with
  | start => exact ⟨0, by simpa using Reach.start, by omega⟩
  | @slide d x y _ hsame ih =>
    obtain ⟨d', hreach, hle⟩ := ih
    have hx := hsame.1
    have hy := hsame.2.1
    rw [Nat.min_eq_left (Nat.le_of_lt hx), Nat.min_eq_left (Nat.le_of_lt hy)] at hreach
    refine ⟨d', ?_, by omega⟩
    rw [Nat.min_eq_left hx, Nat.min_eq_left hy]
    exact hreach.slide hsame
  | @remove d x y _ ih =>
    obtain ⟨d', hreach, hle⟩ := ih
    by_cases hx : x < a.length
    · refine ⟨d' + 1, ?_, by omega⟩
      rw [Nat.min_eq_left hx]
      rw [Nat.min_eq_left (Nat.le_of_lt hx)] at hreach
      exact hreach.remove
    · -- beyond the border the edit is for nothing
      refine ⟨d', ?_, by omega⟩
      rw [Nat.min_eq_right (by omega)]
      rwa [Nat.min_eq_right (by omega)] at hreach
  | @add d x y _ ih =>
    obtain ⟨d', hreach, hle⟩ := ih
    by_cases hy : y < b.length
    · refine ⟨d' + 1, ?_, by omega⟩
      rw [Nat.min_eq_left hy]
      rw [Nat.min_eq_left (Nat.le_of_lt hy)] at hreach
      exact hreach.add
    · refine ⟨d', ?_, by omega⟩
      rw [Nat.min_eq_right (a := y + 1) (by omega)]
      rwa [Nat.min_eq_right (a := y) (by omega)] at hreach

/-! ## Runs of equal lines -/

def Snake (a b : List α) (x y j : Nat) : Prop := ∀ i < j, Same a b (x + i) (y + i)

variable {j : Nat}

theorem Reach.snake (h : Reach a b d x y) (hsnake : Snake a b x y j) :
    Reach a b d (x + j) (y + j) := by
  induction j with
  | zero => exact h
  | succ j ih =>
    have hreach := ih fun i hi => hsnake i (by omega)
    exact hreach.slide (hsnake j (by omega))

theorem Reach.last_edit (h : Reach a b (d + 1) x y) :
    ∃ j x0 y0, x = x0 + j ∧ y = y0 + j ∧ Snake a b x0 y0 j
      ∧ ((∃ x1, x0 = x1 + 1 ∧ Reach a b d x1 y0) ∨ ∃ y1, y0 = y1 + 1 ∧ Reach a b d x0 y1) := by
  generalize hd : d + 1 = e at h
  induction h with
  | start => omega
  | slide _ hsame ih =>
    obtain ⟨j, x0, y0, rfl, rfl, hsnake, hlast⟩ := ih hd
    refine ⟨j + 1, x0, y0, by omega, by omega, ?_, hlast⟩
    intro i hi
    by_cases hij : i < j
    · exact hsnake i hij
    · obtain rfl : i = j := by omega
      exact hsame
  | @remove d' x y h _ =>
    obtain rfl : d = d' := by omega
    exact ⟨0, x + 1, y, rfl, rfl, fun i hi => absurd hi (by omega), .inl ⟨x, rfl, h⟩⟩
  | @add d' x y h _ =>
    obtain rfl : d = d' := by omega
    exact ⟨0, x, y + 1, rfl, rfl, fun i hi => absurd hi (by omega), .inr ⟨y, rfl, h⟩⟩

theorem Reach.no_edit (h : Reach a b d x y) (hd : d = 0) : x = y ∧ Snake a b 0 0 x := by
  induction h with
  | start => exact ⟨rfl, fun i hi => absurd hi (by omega)⟩
  | @slide _ x y _ hsame ih =>
    obtain ⟨rfl, hsnake⟩ := ih hd
    refine ⟨rfl, fun i hi => ?_⟩
    by_cases hix : i < x
    · exact hsnake i hix
    · obtain rfl : i = x := by omega
      simpa using hsame
  | remove => omega
  | add => omega

/-! ## Scripts of the parts before a point -/

theorem take_succ_getD {lines : List α} {n : Nat} (hn : n < lines.length) (l : α) :
    lines.take (n + 1) = lines.take n ++ [lines[n]?.getD l] := by
  rw [List.take_succ_eq_append_getElem hn, List.getElem?_eq_getElem hn]
  rfl

theorem Script.keep {changes : List (Change α)} (h : Script (a.take x) (b.take y) changes)
    (hsame : Same a b x y) (l : α) :
    Script (a.take (x + 1)) (b.take (y + 1)) (changes ++ [⟨.equal, a[x]?.getD l⟩]) := by
  obtain ⟨hx, hy, hline⟩ := hsame
  constructor
  · rw [oldLines_append, h.old, oldLines_equal, oldLines_nil, take_succ_getD hx l]
  · rw [newLines_append, h.new, newLines_equal, newLines_nil, take_succ_getD hy l, hline]

theorem Script.remove {changes : List (Change α)} (h : Script (a.take x) (b.take y) changes)
    (hx : x < a.length) (l : α) :
    Script (a.take (x + 1)) (b.take y) (changes ++ [⟨.remove, a[x]?.getD l⟩]) := by
  constructor
  · rw [oldLines_append, h.old, oldLines_remove, oldLines_nil, take_succ_getD hx l]
  · rw [newLines_append, h.new, newLines_remove, newLines_nil, List.append_nil]

theorem Script.add {changes : List (Change α)} (h : Script (a.take x) (b.take y) changes)
    (hy : y < b.length) (l : α) :
    Script (a.take x) (b.take (y + 1)) (changes ++ [⟨.add, b[y]?.getD l⟩]) := by
  constructor
  · rw [oldLines_append, h.old, oldLines_add, oldLines_nil, List.append_nil]
  · rw [newLines_append, h.new, newLines_add, newLines_nil, take_succ_getD hy l]

/-! ## Furthest reaching points -/

structure FurthestOn (a b : List α) (d : Nat) (k x : Int) : Prop where
  reached : ∃ n m : Nat, (n : Int) = x ∧ (n : Int) - m = k ∧ Reach a b d n m
  furthest : ∀ n m : Nat, Reach a b d n m → (n : Int) - m = k → (n : Int) ≤ x

theorem FurthestOn.unique {k x x' : Int} (h : FurthestOn a b d k x) (h' : FurthestOn a b d k x')
    : x = x' := by
  obtain ⟨n, m, rfl, hk, hreach⟩ := h.reached
  obtain ⟨n', m', rfl, hk', hreach'⟩ := h'.reached
  have hle := h.furthest n' m' hreach' hk'
  have hge := h'.furthest n m hreach hk
  omega

/-- A run of equal lines that cannot go on ends no earlier than one on the same diagonal that
starts no later. -/
theorem Snake.le {x0 y0 j0 s t : Nat} (hsnake : Snake a b x0 y0 j0) (hle : x0 ≤ s)
    (hdiagonal : x0 + t = s + y0) (hstop : ¬ Same a b (s + j) (t + j)) : x0 + j0 ≤ s + j := by
  by_contra hlt
  have hsame := hsnake (s + j - x0) (by omega)
  have hx : x0 + (s + j - x0) = s + j := by omega
  have hy : y0 + (s + j - x0) = t + j := by omega
  rw [hx, hy] at hsame
  exact hstop hsame

/-- **One edit more**: the further of the two neighbours, and the equal lines behind it. -/
theorem FurthestOn.next {s t : Nat} (hreach : Reach a b (d + 1) s t)
    (hremove : ∀ n m : Nat, Reach a b d n m → (n : Int) + 1 - m = s - t → n + 1 ≤ s)
    (hadd : ∀ n m : Nat, Reach a b d n m → (n : Int) - (m + 1) = s - t → n ≤ s)
    (hsnake : Snake a b s t j) (hstop : ¬ Same a b (s + j) (t + j)) :
    FurthestOn a b (d + 1) (s - t) (s + j) := by
  constructor
  · exact ⟨s + j, t + j, by push_cast; rfl, by push_cast; omega, hreach.snake hsnake⟩
  · intro n m hpath hk
    obtain ⟨j0, x0, y0, rfl, rfl, hrun, hlast⟩ := hpath.last_edit
    have hle : x0 ≤ s := by
      obtain ⟨x1, rfl, hbefore⟩ | ⟨y1, rfl, hbefore⟩ := hlast
      · exact hremove x1 y0 hbefore (by push_cast at hk; omega)
      · exact hadd x0 y1 hbefore (by push_cast at hk; omega)
    have hend := hrun.le hle (by push_cast at hk; omega) hstop
    omega

theorem FurthestOn.zero (hsnake : Snake a b 0 0 j) (hstop : ¬ Same a b j j) :
    FurthestOn a b 0 0 j := by
  constructor
  · exact ⟨j, j, rfl, by omega, by simpa using Reach.start.snake hsnake⟩
  · intro n m hpath hk
    obtain ⟨-, hrun⟩ := hpath.no_edit rfl
    have hend := hrun.le (Nat.le_refl 0) rfl (by simpa using hstop)
    omega

end EditScript
