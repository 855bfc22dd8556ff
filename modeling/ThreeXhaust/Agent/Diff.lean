import ThreeXhaust.Lib.EditScript
import ThreeXhaust.Lib.Utf16
import Mathlib.Logic.Function.Basic

/-!
# The changes of a file

`lineChanges` and `backtrackChanges` of `agent-approved-file-preview.ts`: the greedy search for a
shortest edit script over two lists of lines, with the map of furthest points copied before every
distance, and the walk back through the copies.

The search does not stop at the borders of the grid, so a point may lie outside of it. A point
outside that counts as the end is never the first one found: the corner was passed with fewer
edits (`Reach.clamp`).
-/

namespace ThreeXhaust.Agent

open Utf16 EditScript

abbrev Line := Text

abbrev Change := EditScript.Change Line

def MAX_PREVIEW_LINES : Nat := 97

/-- `Map<number, number>`. -/
abbrev Furthest := Int → Option Int

def newline : UInt16 := 10

/-- `content === "" ? [] : content.split("\n")`. -/
def linesOf (content : Text) : List Line := if content = [] then [] else content.splitOn newline

/-- `lines[index]`, `none` outside. -/
def lineAt (lines : List Line) (index : Int) : Option Line :=
  if 0 ≤ index then lines[index.toNat]? else none

/-! ## The walk back -/

def isDown (furthest : Furthest) (distance diagonal : Int) : Bool :=
  diagonal = -distance ||
    (diagonal ≠ distance &&
      (furthest (diagonal - 1)).getD (-1) < (furthest (diagonal + 1)).getD (-1))

def slideBack (oldLines : List Line) (oldIndex newIndex previousOld previousNew : Int) :
    List Change × Int × Int :=
  if oldIndex > previousOld ∧ newIndex > previousNew then
    let (changes, rest) :=
      slideBack oldLines (oldIndex - 1) (newIndex - 1) previousOld previousNew
    (⟨.equal, (lineAt oldLines (oldIndex - 1)).getD []⟩ :: changes, rest)
  else ([], oldIndex, newIndex)
termination_by (oldIndex - previousOld).toNat
decreasing_by omega

/-- The copies of the map, the last one first; what is pushed from here on. -/
def backtrackFrom (oldLines newLines : List Line) :
    List Furthest → Int → Int → List Change
  | [], _, _ => []
  | furthest :: earlier, oldIndex, newIndex =>
    let distance : Int := earlier.length
    let diagonal := oldIndex - newIndex
    let previousDiagonal := if isDown furthest distance diagonal then diagonal + 1 else diagonal - 1
    let previousOld := (furthest previousDiagonal).getD 0
    let previousNew := previousOld - previousDiagonal
    let (changes, oldIndex, newIndex) :=
      slideBack oldLines oldIndex newIndex previousOld previousNew
    if distance = 0 then changes
    else if oldIndex = previousOld then
      changes ++ ⟨.add, (lineAt newLines (newIndex - 1)).getD []⟩ ::
        backtrackFrom oldLines newLines earlier oldIndex (newIndex - 1)
    else
      changes ++ ⟨.remove, (lineAt oldLines (oldIndex - 1)).getD []⟩ ::
        backtrackFrom oldLines newLines earlier (oldIndex - 1) newIndex

def backtrackChanges (trace : List Furthest) (oldLines newLines : List Line) : List Change :=
  (backtrackFrom oldLines newLines trace.reverse oldLines.length newLines.length).reverse

/-! ## The search -/

def slide (oldLines newLines : List Line) (oldIndex newIndex : Int) : Int × Int :=
  if oldIndex < oldLines.length ∧ newIndex < newLines.length
      ∧ lineAt oldLines oldIndex = lineAt newLines newIndex then
    slide oldLines newLines (oldIndex + 1) (newIndex + 1)
  else (oldIndex, newIndex)
termination_by (oldLines.length - oldIndex).toNat
decreasing_by omega

def reachDiagonal (oldLines newLines : List Line) (furthest : Furthest) (distance diagonal : Int) :
    Int × Int :=
  let oldIndex :=
    if isDown furthest distance diagonal then (furthest (diagonal + 1)).getD 0
    else (furthest (diagonal - 1)).getD 0 + 1
  slide oldLines newLines oldIndex (oldIndex - diagonal)

/-- `for (let diagonal = -distance; diagonal <= distance; diagonal += 2)`. -/
def diagonals (distance : Nat) : List Int :=
  (List.range (distance + 1)).map fun i : Nat => 2 * (i : Int) - distance

/-- The diagonals of one distance; `none` where the end is found. -/
def sweep (oldLines newLines : List Line) (distance : Int) : List Int → Furthest → Option Furthest
  | [], furthest => some furthest
  | diagonal :: rest, furthest =>
    let (oldIndex, newIndex) := reachDiagonal oldLines newLines furthest distance diagonal
    if oldIndex ≥ oldLines.length ∧ newIndex ≥ newLines.length then none
    else sweep oldLines newLines distance rest (Function.update furthest diagonal (some oldIndex))

/-- The distances one after the other; the copies of the map when the end is found. -/
def search (oldLines newLines : List Line) : List Nat → List Furthest → Furthest →
    Option (List Furthest)
  | [], _, _ => none
  | distance :: rest, trace, furthest =>
    match sweep oldLines newLines distance (diagonals distance) furthest with
    | none => some (trace ++ [furthest])
    | some next => search oldLines newLines rest (trace ++ [furthest]) next

/-- `new Map([[1, 0]])`. -/
def initial : Furthest := Function.update (fun _ => none) 1 (some 0)

def lineChanges (before after : Text) : Except String (List Change) :=
  let oldLines := linesOf before
  let newLines := linesOf after
  let maximumDistance := min (oldLines.length + newLines.length) MAX_PREVIEW_LINES
  match search oldLines newLines (List.range (maximumDistance + 1)) [] initial with
  | some trace => .ok (backtrackChanges trace oldLines newLines)
  | none => .error s!"Mutation preview exceeds {MAX_PREVIEW_LINES} review lines"

/-! ## Points and lines -/

variable {a b : List Line}

@[simp] theorem lineAt_natCast (lines : List Line) (n : Nat) : lineAt lines n = lines[n]? := by
  rw [lineAt, if_pos (Int.natCast_nonneg n), Int.toNat_natCast]

theorem same_iff {x y : Nat} :
    Same a b x y ↔ (x : Int) < a.length ∧ (y : Int) < b.length ∧ lineAt a x = lineAt b y := by
  simp [Same]

theorem slide_spec (a b : List Line) (s t : Nat) :
    ∃ j : Nat, slide a b s t = (((s + j : Nat) : Int), ((t + j : Nat) : Int))
      ∧ Snake a b s t j ∧ ¬ Same a b (s + j) (t + j) := by
  induction hlen : a.length - s generalizing s t with
  | zero =>
    have hsame : ¬ Same a b s t := fun h => by
      have := h.1
      omega
    refine ⟨0, ?_, fun i hi => absurd hi (by omega), hsame⟩
    rw [slide, if_neg (fun h => hsame (same_iff.mpr h))]
    rfl
  | succ n ih =>
    by_cases hsame : Same a b s t
    · obtain ⟨j, hslide, hsnake, hstop⟩ := ih (s + 1) (t + 1) (by omega)
      refine ⟨j + 1, ?_, ?_, ?_⟩
      · rw [slide, if_pos (same_iff.mp hsame)]
        push_cast at hslide ⊢
        rw [hslide]
        simp only [Prod.mk.injEq]
        omega
      · intro i hi
        cases i with
        | zero => exact hsame
        | succ i =>
          have hnext := hsnake i (by omega)
          have hx : s + 1 + i = s + (i + 1) := by omega
          have hy : t + 1 + i = t + (i + 1) := by omega
          rwa [hx, hy] at hnext
      · have hx : s + 1 + j = s + (j + 1) := by omega
        have hy : t + 1 + j = t + (j + 1) := by omega
        rwa [hx, hy] at hstop
    · refine ⟨0, ?_, fun i hi => absurd hi (by omega), hsame⟩
      rw [slide, if_neg (fun h => hsame (same_iff.mpr h))]
      rfl

/-! ## One distance -/

def IsDiagonal (d : Nat) (k : Int) : Prop := -d ≤ k ∧ k ≤ d ∧ (k + d) % 2 = 0

variable {k : Int}

theorem mem_diagonals {d : Nat} : k ∈ diagonals d ↔ IsDiagonal d k := by
  rw [diagonals, List.mem_map, IsDiagonal]
  constructor
  · rintro ⟨i, hi, rfl⟩
    have := List.mem_range.mp hi
    omega
  · intro h
    exact ⟨((k + d) / 2).toNat, List.mem_range.mpr (by omega), by omega⟩

theorem reach_isDiagonal {d n m : Nat} (h : Reach a b d n m) (hk : (n : Int) - m = k) :
    IsDiagonal d k := by
  have := h.diagonal
  simp only [IsDiagonal]
  omega

/-- The map holds the furthest point of every diagonal of a distance. -/
def Reached (a b : List Line) (d : Nat) (furthest : Furthest) : Prop :=
  ∀ k, IsDiagonal d k → ∃ x, furthest k = some x ∧ FurthestOn a b d k x

theorem Reached.move {d : Nat} {furthest : Furthest} (h : Reached a b d furthest)
    (hk : IsDiagonal (d + 1) k) :
    ∃ s t : Nat, (s : Int) - t = k
      ∧ (∀ n m : Nat, Reach a b d n m → (n : Int) + 1 - m = k → n + 1 ≤ s)
      ∧ (∀ n m : Nat, Reach a b d n m → (n : Int) - (m + 1) = k → n ≤ s)
      ∧ ((isDown furthest (d + 1) k = true ∧ furthest (k + 1) = some (s : Int)
          ∧ ∃ t' : Nat, t = t' + 1 ∧ Reach a b d s t')
        ∨ (isDown furthest (d + 1) k = false
          ∧ ∃ s' : Nat, s = s' + 1 ∧ furthest (k - 1) = some (s' : Int) ∧ Reach a b d s' t)) := by
  have hk' := hk
  simp only [IsDiagonal] at hk'
  cases hdown : isDown furthest (d + 1) k with
  | true =>
    simp only [isDown, Bool.or_eq_true, Bool.and_eq_true, decide_eq_true_eq] at hdown
    -- the neighbour above is there: `k` is not the last diagonal
    obtain ⟨q, hq, hfurthest⟩ := h (k + 1) (by simp only [IsDiagonal]; omega)
    obtain ⟨s, t, rfl, hst, hreach⟩ := hfurthest.reached
    refine ⟨s, t + 1, by push_cast; omega, ?_, ?_, .inl ⟨rfl, hq, t, rfl, hreach⟩⟩
    · intro n m hbefore hnm
      have hdiagonal := reach_isDiagonal hbefore (k := k - 1) (by omega)
      obtain ⟨p, hp, hfar⟩ := h (k - 1) hdiagonal
      have hle := hfar.furthest n m hbefore (by omega)
      obtain hfirst | ⟨-, hlt⟩ := hdown
      · simp only [IsDiagonal] at hdiagonal
        omega
      · rw [hp, hq, Option.getD_some, Option.getD_some] at hlt
        omega
    · intro n m hbefore hnm
      have hle := hfurthest.furthest n m hbefore (by omega)
      omega
  | false =>
    simp only [isDown, Bool.or_eq_false_iff, Bool.and_eq_false_iff, decide_eq_false_iff_not]
      at hdown
    obtain ⟨hfirst, hdown⟩ := hdown
    obtain ⟨p, hp, hfurthest⟩ := h (k - 1) (by simp only [IsDiagonal]; omega)
    obtain ⟨s, t, rfl, hst, hreach⟩ := hfurthest.reached
    refine ⟨s + 1, t, by push_cast; omega, ?_, ?_, .inr ⟨rfl, s, rfl, hp, hreach⟩⟩
    · intro n m hbefore hnm
      have hle := hfurthest.furthest n m hbefore (by omega)
      omega
    · intro n m hbefore hnm
      have hdiagonal := reach_isDiagonal hbefore (k := k + 1) (by omega)
      obtain ⟨q, hq, hfar⟩ := h (k + 1) hdiagonal
      have hle := hfar.furthest n m hbefore (by omega)
      obtain hlast | hlt := hdown
      · simp only [IsDiagonal] at hdiagonal
        omega
      · rw [hp, hq, Option.getD_some, Option.getD_some] at hlt
        omega

/-- **A diagonal** is reached at its furthest point. -/
theorem Reached.reachDiagonal {d : Nat} {furthest : Furthest} (h : Reached a b d furthest) {k : Int}
    (hk : IsDiagonal (d + 1) k) :
    ∃ x y : Nat, reachDiagonal a b furthest (d + 1) k = ((x : Int), (y : Int))
      ∧ (x : Int) - y = k ∧ FurthestOn a b (d + 1) k x := by
  obtain ⟨s, t, hst, hremove, hadd, hmove⟩ := h.move hk
  obtain ⟨j, hslide, hsnake, hstop⟩ := slide_spec a b s t
  have hindex : (if isDown furthest (d + 1) k then (furthest (k + 1)).getD 0
      else (furthest (k - 1)).getD 0 + 1) = (s : Int) := by
    obtain ⟨hdown, hfurthest, -⟩ | ⟨hdown, s', hs, hfurthest, -⟩ := hmove
    · simp only [hdown, hfurthest, if_true, Option.getD_some]
    · simp only [hdown, hfurthest, Bool.false_eq_true, if_false, Option.getD_some]
      omega
  have hreach : Reach a b (d + 1) s t := by
    obtain ⟨-, -, t', rfl, hbefore⟩ | ⟨-, s', rfl, -, hbefore⟩ := hmove
    · exact hbefore.add
    · exact hbefore.remove
  refine ⟨s + j, t + j, ?_, by push_cast; omega, ?_⟩
  · have hother : (s : Int) - k = t := by omega
    simp only [Agent.reachDiagonal, hindex, hother, hslide]
  · have hnext := FurthestOn.next hreach (hst ▸ hremove) (hst ▸ hadd) hsnake hstop
    rw [hst] at hnext
    exact_mod_cast hnext

def Short (a b : List Line) (d : Nat) : Prop :=
  ∀ n m : Nat, Reach a b d n m → ¬ (a.length ≤ n ∧ b.length ≤ m)

theorem FurthestOn.short {d x y : Nat} (hx : FurthestOn a b d k x) (hxy : (x : Int) - y = k)
    (hend : ¬ (a.length ≤ x ∧ b.length ≤ y)) {n m : Nat} (h : Reach a b d n m)
    (hnm : (n : Int) - m = k) : ¬ (a.length ≤ n ∧ b.length ≤ m) := by
  have hle := hx.furthest n m h hnm
  omega

theorem reached_update {d : Nat} {furthest : Furthest} (h : Reached a b d furthest)
    (hk : IsDiagonal (d + 1) k) (x : Option Int) :
    Reached a b d (Function.update furthest k x) := by
  intro k' hk'
  have hne : k' ≠ k := by
    rintro rfl
    simp only [IsDiagonal] at hk hk'
    omega
  rw [Function.update_of_ne hne]
  exact h k' hk'

theorem sweep_spec {d : Nat} {ks : List Int} {furthest : Furthest} (h : Reached a b d furthest)
    (hks : ∀ k ∈ ks, IsDiagonal (d + 1) k) :
    match sweep a b (d + 1) ks furthest with
    | none => ¬ Short a b (d + 1)
    | some next => (∀ k ∉ ks, next k = furthest k)
      ∧ ∀ k ∈ ks, ∃ x y : Nat, next k = some (x : Int) ∧ (x : Int) - y = k
        ∧ FurthestOn a b (d + 1) k x ∧ ¬ (a.length ≤ x ∧ b.length ≤ y) := by
  induction ks generalizing furthest with
  | nil => exact ⟨fun _ _ => rfl, fun _ hk => absurd hk List.not_mem_nil⟩
  | cons k rest ih =>
    have hk := hks k List.mem_cons_self
    obtain ⟨x, y, hpoint, hxy, hfurthest⟩ := h.reachDiagonal hk
    by_cases hend : a.length ≤ x ∧ b.length ≤ y
    · have hnone : sweep a b (d + 1) (k :: rest) furthest = none := by
        simp only [sweep, hpoint]
        exact if_pos ⟨by exact_mod_cast hend.1, by exact_mod_cast hend.2⟩
      rw [hnone]
      obtain ⟨n, m, hn, hnm, hreach⟩ := hfurthest.reached
      intro hshort
      exact hshort n m hreach (by omega)
    · have hsome : sweep a b (d + 1) (k :: rest) furthest
          = sweep a b (d + 1) rest (Function.update furthest k (some (x : Int))) := by
        simp only [sweep, hpoint]
        exact if_neg fun h => hend ⟨by exact_mod_cast h.1, by exact_mod_cast h.2⟩
      have hrest := ih (reached_update h hk (some (x : Int)))
        fun k' hk' => hks k' (List.mem_cons_of_mem k hk')
      rw [hsome]
      split
      · next hsweep =>
        rw [hsweep] at hrest
        exact hrest
      · next next hsweep =>
        rw [hsweep] at hrest
        obtain ⟨hkept, hset⟩ := hrest
        constructor
        · intro k' hk'
          rw [List.mem_cons, not_or] at hk'
          rw [hkept k' hk'.2, Function.update_of_ne hk'.1]
        · intro k' hk'
          by_cases hmem : k' ∈ rest
          · exact hset k' hmem
          · obtain rfl : k' = k := (List.mem_cons.mp hk').resolve_right hmem
            exact ⟨x, y, by rw [hkept k' hmem, Function.update_self], hxy, hfurthest, hend⟩

/-- **One distance**: it finds the end, or no point at the end is reached with so many edits and
the furthest points are known. -/
theorem Reached.sweep {d : Nat} {furthest : Furthest} (h : Reached a b d furthest) :
    match sweep a b (d + 1 : Nat) (diagonals (d + 1)) furthest with
    | none => ¬ Short a b (d + 1)
    | some next => Reached a b (d + 1) next ∧ Short a b (d + 1) := by
  have hspec := sweep_spec h fun k hk => mem_diagonals.mp hk
  push_cast
  split
  · next hsweep =>
    rw [hsweep] at hspec
    exact hspec
  · next next hsweep =>
    rw [hsweep] at hspec
    obtain ⟨-, hset⟩ := hspec
    constructor
    · intro k hk
      obtain ⟨x, y, hx, -, hfurthest, -⟩ := hset k (mem_diagonals.mpr hk)
      exact ⟨x, hx, hfurthest⟩
    · intro n m hreach
      obtain ⟨x, y, -, hxy, hfurthest, hend⟩ :=
        hset _ (mem_diagonals.mpr (reach_isDiagonal hreach rfl))
      exact FurthestOn.short hfurthest hxy hend hreach rfl

theorem isDown_initial : isDown initial 0 0 = true := by decide

theorem reachDiagonal_initial (a b : List Line) :
    ∃ j : Nat, reachDiagonal a b initial 0 0 = ((j : Int), (j : Int)) ∧ FurthestOn a b 0 0 j := by
  obtain ⟨j, hslide, hsnake, hstop⟩ := slide_spec a b 0 0
  simp only [Nat.zero_add] at hslide hstop
  have hinitial : initial (0 + 1) = some 0 := by decide
  refine ⟨j, ?_, FurthestOn.zero hsnake hstop⟩
  simp only [reachDiagonal, isDown_initial, if_true, hinitial, Option.getD_some, Int.sub_zero]
  exact_mod_cast hslide

theorem sweep_initial (a b : List Line) :
    match sweep a b (0 : Nat) (diagonals 0) initial with
    | none => ¬ Short a b 0
    | some next => Reached a b 0 next ∧ Short a b 0 := by
  obtain ⟨j, hpoint, hfurthest⟩ := reachDiagonal_initial a b
  have hzero : ∀ {k : Int}, IsDiagonal 0 k → k = 0 := by
    intro k hk
    simp only [IsDiagonal] at hk
    omega
  have hdiagonals : diagonals 0 = [0] := by decide
  by_cases hend : a.length ≤ j ∧ b.length ≤ j
  · have hnone : Agent.sweep a b (0 : Nat) (diagonals 0) initial = none := by
      simp only [hdiagonals, Agent.sweep, Int.natCast_zero, hpoint]
      exact if_pos ⟨by exact_mod_cast hend.1, by exact_mod_cast hend.2⟩
    rw [hnone]
    obtain ⟨n, m, hn, hnm, hreach⟩ := hfurthest.reached
    intro hshort
    exact hshort n m hreach (by omega)
  · have hsome : Agent.sweep a b (0 : Nat) (diagonals 0) initial
        = some (Function.update initial 0 (some (j : Int))) := by
      simp only [hdiagonals, Agent.sweep, Int.natCast_zero, hpoint]
      exact if_neg fun h => hend ⟨by exact_mod_cast h.1, by exact_mod_cast h.2⟩
    rw [hsome]
    constructor
    · intro k hk
      obtain rfl := hzero hk
      exact ⟨j, Function.update_self .., hfurthest⟩
    · intro n m hreach
      exact FurthestOn.short (y := j) hfurthest (by omega) hend hreach
        (hzero (reach_isDiagonal hreach rfl))

/-! ## All distances -/

/-- The copies of the map that were taken, the last one first: each knows the furthest points of
the distance before it. -/
inductive Traced (a b : List Line) : Nat → List Furthest → Prop
  | first : Traced a b 0 [initial]
  | next {d : Nat} {trace : List Furthest} {furthest : Furthest} (h : Traced a b d trace)
      (hreached : Reached a b d furthest) : Traced a b (d + 1) (furthest :: trace)

theorem Traced.length {d : Nat} {trace : List Furthest} (h : Traced a b d trace) :
    trace.length = d + 1 := by
  induction h with
  | first => rfl
  | next _ _ ih => rw [List.length_cons, ih]

/-- **The end** is first met in the corner: the walk back starts there. -/
theorem corner_of_first {d : Nat} (hend : ¬ Short a b d) (hshort : ∀ d' < d, Short a b d') :
    Reach a b d a.length b.length
      ∧ FurthestOn a b d (a.length - b.length) a.length := by
  have hcorner {n m : Nat} (h : Reach a b d n m) (hn : a.length ≤ n) (hm : b.length ≤ m) :
      n = a.length ∧ m = b.length := by
    obtain ⟨d', hreach, hle⟩ := h.clamp
    rw [Nat.min_eq_right hn, Nat.min_eq_right hm] at hreach
    by_contra hne
    exact hshort d' (by omega) a.length b.length hreach ⟨Nat.le_refl _, Nat.le_refl _⟩
  simp only [Short, not_forall, not_not] at hend
  obtain ⟨n, m, hreach, hn, hm⟩ := hend
  obtain ⟨rfl, rfl⟩ := hcorner hreach hn hm
  refine ⟨hreach, ⟨⟨_, _, rfl, rfl, hreach⟩, ?_⟩⟩
  intro n m hpath hnm
  by_contra hlt
  have := hcorner hpath (by omega) (by omega)
  omega

/-- **The search** stops at the first distance with which the corner is reached. -/
theorem search_spec {count d : Nat} {trace : List Furthest} {furthest : Furthest}
    (htraced : Traced a b d (furthest :: trace.reverse)) (hshort : ∀ d' < d, Short a b d') :
    match search a b (List.range' d count) trace furthest with
    | none => ∀ d' < d + count, Short a b d'
    | some found => ∃ d' < d + count, Traced a b d' found.reverse ∧ ¬ Short a b d'
      ∧ ∀ d'' < d', Short a b d'' := by
  induction count generalizing d trace furthest with
  | zero => exact hshort
  | succ count ih =>
    have hsweep : match sweep a b d (diagonals d) furthest with
        | none => ¬ Short a b d
        | some next => Reached a b d next ∧ Short a b d := by
      generalize hmaps : furthest :: trace.reverse = maps at htraced
      cases htraced with
      | first =>
        obtain ⟨rfl, -⟩ := List.cons.inj hmaps
        exact sweep_initial a b
      | next _ hreached =>
        obtain ⟨rfl, -⟩ := List.cons.inj hmaps
        exact hreached.sweep
    rw [List.range'_succ, search]
    cases hfound : sweep a b d (diagonals d) furthest with
    | none =>
      rw [hfound] at hsweep
      refine ⟨d, by omega, ?_, hsweep, hshort⟩
      rw [List.reverse_append]
      exact htraced
    | some next =>
      rw [hfound] at hsweep
      obtain ⟨hreached, hlast⟩ := hsweep
      have htraced' : Traced a b (d + 1) (next :: (trace ++ [furthest]).reverse) := by
        rw [List.reverse_append]
        exact htraced.next hreached
      have hrest := ih htraced' fun d' hd' => by
        by_cases hd : d' = d
        · exact hd ▸ hlast
        · exact hshort d' (by omega)
      rw [show d + (count + 1) = d + 1 + count by omega]
      exact hrest

/-! ## The walk back is a script -/

theorem slideBack_spec {s t j : Nat} {previousOld previousNew : Int} (hsnake : Snake a b s t j)
    (hold : previousOld ≤ s) (hnew : previousNew ≤ t)
    (hstop : ¬ ((s : Int) > previousOld ∧ (t : Int) > previousNew)) :
    ∃ pushed, slideBack a (s + j : Nat) (t + j : Nat) previousOld previousNew
        = (pushed, (s : Int), (t : Int))
      ∧ cost pushed = 0
      ∧ ∀ changes, Script (a.take s) (b.take t) changes →
        Script (a.take (s + j)) (b.take (t + j)) (changes ++ pushed.reverse) := by
  induction j with
  | zero =>
    refine ⟨[], ?_, rfl, fun changes h => by simpa using h⟩
    rw [slideBack, if_neg (by simpa using hstop)]
    rfl
  | succ j ih =>
    obtain ⟨pushed, hback, hcost, hscript⟩ := ih fun i hi => hsnake i (by omega)
    refine ⟨⟨.equal, a[s + j]?.getD []⟩ :: pushed, ?_, by simpa using hcost, ?_⟩
    · have hs : ((s + (j + 1) : Nat) : Int) - 1 = (s + j : Nat) := by omega
      have ht : ((t + (j + 1) : Nat) : Int) - 1 = (t + j : Nat) := by omega
      rw [slideBack, if_pos (by omega), hs, ht, hback, lineAt_natCast]
    · intro changes h
      have hkeep := (hscript changes h).keep (hsnake j (by omega)) []
      rw [List.reverse_cons, ← List.append_assoc]
      exact hkeep

theorem cost_reverse (changes : List Change) : cost changes.reverse = cost changes :=
  List.countP_reverse

theorem Reached.behind {d x y : Nat} {furthest : Furthest} (h : Reached a b d furthest)
    (hx : FurthestOn a b (d + 1) ((x : Int) - y) x) :
    ∃ s t j : Nat, x = s + j ∧ y = t + j ∧ Snake a b s t j
      ∧ ((isDown furthest (d + 1) ((x : Int) - y) = true
          ∧ furthest ((x : Int) - y + 1) = some (s : Int)
          ∧ ∃ t' : Nat, t = t' + 1 ∧ FurthestOn a b d ((s : Int) - t') s)
        ∨ (isDown furthest (d + 1) ((x : Int) - y) = false
          ∧ ∃ s' : Nat, s = s' + 1 ∧ furthest ((x : Int) - y - 1) = some (s' : Int)
            ∧ FurthestOn a b d ((s' : Int) - t) s')) := by
  obtain ⟨n, m, hn, hnm, hreach⟩ := hx.reached
  obtain ⟨s, t, hst, hremove, hadd, hmove⟩ := h.move (reach_isDiagonal hreach hnm)
  obtain ⟨j, -, hsnake, hstop⟩ := slide_spec a b s t
  have hreach' : Reach a b (d + 1) s t := by
    obtain ⟨-, -, t', rfl, hbefore⟩ | ⟨-, s', rfl, -, hbefore⟩ := hmove
    · exact hbefore.add
    · exact hbefore.remove
  have hnext := FurthestOn.next hreach' (hst ▸ hremove) (hst ▸ hadd) hsnake hstop
  rw [hst] at hnext
  have hxs := hx.unique hnext
  refine ⟨s, t, j, by omega, by omega, hsnake, ?_⟩
  obtain ⟨hdown, hs, t', rfl, hbefore⟩ | ⟨hdown, s', rfl, hs, hbefore⟩ := hmove
  · refine .inl ⟨hdown, hs, t', rfl, ?_⟩
    obtain ⟨p, hp, hfurthest⟩ := h _ (reach_isDiagonal hbefore rfl)
    have hdiagonal : (s : Int) - t' = (x : Int) - y + 1 := by push_cast at hst; omega
    rw [hdiagonal, hs] at hp
    obtain rfl := Option.some.inj hp
    exact hfurthest
  · refine .inr ⟨hdown, s', rfl, hs, ?_⟩
    obtain ⟨p, hp, hfurthest⟩ := h _ (reach_isDiagonal hbefore rfl)
    have hdiagonal : (s' : Int) - t = (x : Int) - y - 1 := by push_cast at hst; omega
    rw [hdiagonal, hs] at hp
    obtain rfl := Option.some.inj hp
    exact hfurthest

/-- **The walk back** from a furthest point is a script of the lines before it. -/
theorem backtrackFrom_spec {d : Nat} {trace : List Furthest} (h : Traced a b d trace) {x y : Nat}
    (hx : FurthestOn a b d ((x : Int) - y) x) (hxa : x ≤ a.length) (hyb : y ≤ b.length) :
    Script (a.take x) (b.take y) (backtrackFrom a b trace x y).reverse
      ∧ cost (backtrackFrom a b trace x y) = d := by
  induction h generalizing x y with
  | first =>
    obtain ⟨n, m, hn, hnm, hreach⟩ := hx.reached
    obtain ⟨rfl, hsnake⟩ := hreach.no_edit rfl
    obtain rfl : n = x := by omega
    obtain rfl : n = y := by omega
    obtain ⟨pushed, hback, hcost, hscript⟩ := @slideBack_spec a b 0 0 n 0 (-1) hsnake (by omega)
      (by omega) (by omega)
    have hchanges : backtrackFrom a b [initial] n n = pushed := by
      have hinitial : initial 1 = some 0 := by decide
      simp only [Nat.zero_add] at hback
      simp [backtrackFrom, isDown_initial, hinitial, hback]
    rw [hchanges]
    have hall := hscript [] ⟨rfl, rfl⟩
    simp only [Nat.zero_add, List.nil_append] at hall
    exact ⟨hall, hcost⟩
  | @next d trace furthest htrace hreached ih =>
    obtain ⟨s, t, j, rfl, rfl, hsnake, hmove⟩ := hreached.behind hx
    have hdistance : ((trace.length : Nat) : Int) = (d : Int) + 1 := by
      rw [htrace.length]
      rfl
    have hpositive : ¬ ((d : Int) + 1 = 0) := by omega
    obtain ⟨hdown, hs, t', rfl, hbefore⟩ | ⟨hdown, s', rfl, hs, hbefore⟩ := hmove
    · -- a line was added
      obtain ⟨pushed, hback, hcost, hscript⟩ := @slideBack_spec a b s (t' + 1) j s t' hsnake
        (by omega) (by omega) (by omega)
      obtain ⟨hrest, hedits⟩ := ih hbefore (by omega) (by omega)
      have hprevious : (s : Int) - (((s + j : Nat) : Int) - ((t' + 1 + j : Nat) : Int) + 1)
          = t' := by omega
      have hnew : ((t' + 1 : Nat) : Int) - 1 = t' := by omega
      have hchanges : backtrackFrom a b (furthest :: trace) (s + j : Nat) (t' + 1 + j : Nat)
          = pushed ++ ⟨.add, b[t']?.getD []⟩ :: backtrackFrom a b trace s t' := by
        simp only [backtrackFrom, hdistance, hdown, if_true, hs, Option.getD_some, hprevious, hback,
          hpositive, if_false, hnew, lineAt_natCast]
      rw [hchanges]
      constructor
      · have hadd := hscript _ (hrest.add (by omega) [])
        simpa using hadd
      · rw [cost_append, hcost, cost_add, hedits]
        omega
    · -- a line was removed
      obtain ⟨pushed, hback, hcost, hscript⟩ := @slideBack_spec a b (s' + 1) t j s' t hsnake
        (by omega) (by omega) (by omega)
      obtain ⟨hrest, hedits⟩ := ih hbefore (by omega) (by omega)
      have hprevious : (s' : Int) - (((s' + 1 + j : Nat) : Int) - ((t + j : Nat) : Int) - 1)
          = t := by omega
      have hold : ((s' + 1 : Nat) : Int) - 1 = s' := by omega
      have hne : ¬ (((s' + 1 : Nat) : Int) = s') := by omega
      have hchanges : backtrackFrom a b (furthest :: trace) (s' + 1 + j : Nat) (t + j : Nat)
          = pushed ++ ⟨.remove, a[s']?.getD []⟩ :: backtrackFrom a b trace s' t := by
        simp only [backtrackFrom, hdistance, hdown, Bool.false_eq_true, if_false, hs,
          Option.getD_some, hprevious, hback, hpositive, hne, hold, lineAt_natCast]
      rw [hchanges]
      constructor
      · have hremove := hscript _ (hrest.remove (by omega) [])
        simpa using hremove
      · rw [cost_append, hcost, cost_remove, hedits]
        omega

/-! ## The changes -/

theorem search_initial (a b : List Line) (count : Nat) :
    match search a b (List.range count) [] initial with
    | none => ∀ d < count, Short a b d
    | some found => ∃ d < count, Traced a b d found.reverse ∧ ¬ Short a b d
      ∧ ∀ d' < d, Short a b d' := by
  have hspec := @search_spec a b count 0 [] initial Traced.first
    fun d hd => absurd hd (Nat.not_lt_zero d)
  rw [Nat.zero_add, ← List.range_eq_range'] at hspec
  exact hspec

theorem Script.le_cost {d : Nat} {changes : List Change} (hshort : ∀ d' < d, Short a b d')
    (h : Script a b changes) : d ≤ cost changes := by
  by_contra hlt
  exact hshort (cost changes) (by omega) _ _ (Reach.of_script h)
    ⟨Nat.le_refl _, Nat.le_refl _⟩

/-- **The changes** turn the lines of the one file into those of the other, and no other changes
are fewer. -/
theorem lineChanges_script {before after : Text} {changes : List Change}
    (h : lineChanges before after = .ok changes) :
    Script (linesOf before) (linesOf after) changes
      ∧ cost changes ≤ MAX_PREVIEW_LINES
      ∧ ∀ others, Script (linesOf before) (linesOf after) others → cost changes ≤ cost others := by
  have hsearch := search_initial (linesOf before) (linesOf after)
    (min ((linesOf before).length + (linesOf after).length) MAX_PREVIEW_LINES + 1)
  simp only [lineChanges] at h
  split at h
  · next trace htrace =>
    cases h
    rw [htrace] at hsearch
    obtain ⟨d, hd, htraced, hend, hshort⟩ := hsearch
    obtain ⟨-, hcorner⟩ := corner_of_first hend hshort
    obtain ⟨hscript, hcost⟩ := backtrackFrom_spec htraced hcorner (Nat.le_refl _) (Nat.le_refl _)
    rw [List.take_length, List.take_length] at hscript
    rw [backtrackChanges, cost_reverse, hcost]
    exact ⟨hscript, by omega, fun others hothers => Script.le_cost hshort hothers⟩
  · cases h

/-- **It is refused** only where more changes than the bound are necessary. -/
theorem lineChanges_error {before after : Text} {message : String}
    (h : lineChanges before after = .error message) {changes : List Change}
    (hscript : Script (linesOf before) (linesOf after) changes) :
    MAX_PREVIEW_LINES < cost changes := by
  have hsearch := search_initial (linesOf before) (linesOf after)
    (min ((linesOf before).length + (linesOf after).length) MAX_PREVIEW_LINES + 1)
  simp only [lineChanges] at h
  split at h
  · cases h
  · next htrace =>
    rw [htrace] at hsearch
    have hcost := Script.le_cost hsearch hscript
    -- removing and adding everything is within the search
    by_contra hle
    have hall := hsearch ((linesOf before).length + (linesOf after).length) (by omega)
    exact hall _ _ (Reach.all _ _) ⟨Nat.le_refl _, Nat.le_refl _⟩

end ThreeXhaust.Agent
