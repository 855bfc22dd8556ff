import ThreeXhaust.Delta.Pieces
import Mathlib.Data.List.Nodup
import Mathlib.Data.List.Perm.Basic

/-!
# The plan of an array's changes

`buildArrayPlan` in `tracker.ts` turns the pieces of a drafted array into the runs to remove from
the base, the order of what remains, and the runs to insert: from the pieces alone where the base
elements keep their order, and by a walk over all of them otherwise.
-/

namespace ThreeXhaust.Delta.Pieces

/-! ## The source -/

/-- Runs to remove as `start, length`, and runs to insert as `logical index, first piece, end
piece`. -/
structure ArrayPlan where
  removeRuns : List (Int × Int)
  permutation : Option (List Nat)
  insertRuns : List (Nat × Nat × Nat)
deriving DecidableEq

def isInsert (piece : Piece) : Bool := piece.origin ≠ .base

/-- The loop of `insertRunsOf`, which steps over a whole run of insert pieces at once. -/
@[grind =] def insertRunsFrom (pieceIndex logicalIndex : Nat) : List Piece → List (Nat × Nat × Nat)
  | [] => []
  | piece :: rest =>
    if isInsert piece then
      let run := piece :: rest.takeWhile isInsert
      (logicalIndex, pieceIndex, pieceIndex + run.length)
        :: insertRunsFrom (pieceIndex + run.length) (logicalIndex + (run.map Piece.length).sum)
          (rest.dropWhile isInsert)
    else insertRunsFrom (pieceIndex + 1) (logicalIndex + piece.length) rest
termination_by pieces => pieces.length
decreasing_by
  · have := (List.dropWhile_sublist isInsert (l := rest)).length_le
    simp only [List.length_cons]
    omega
  · simp only [List.length_cons]
    omega

def insertRunsOf (pieces : List Piece) : List (Nat × Nat × Nat) := insertRunsFrom 0 0 pieces

/-- The retained base ranges, `first, last` each; `none` where base elements moved. -/
@[grind =] def orderedRanges (previous : Option Int) : List Piece → Option (List (Int × Int))
  | [] => some []
  | piece :: rest =>
    if isInsert piece ∨ piece.length = 0 then orderedRanges previous rest
    else if piece.step ≠ 1 ∧ piece.length > 1 then none
    else if previous.any (piece.start ≤ ·) then none
    else do
      let last := piece.start + piece.length - 1
      let ranges ← orderedRanges (some last) rest
      some ((piece.start, last) :: ranges)

/-- The unretained runs before `stop`, from the end backwards, between ranges in that order. -/
@[grind =] def unretainedRuns (stop : Int) : List (Int × Int) → List (Int × Int)
  | [] => if stop > 0 then [(0, stop)] else []
  | (first, last) :: ranges =>
    (if stop > last + 1 then [(last + 1, stop - (last + 1))] else [])
      ++ unretainedRuns first ranges

def orderedArrayPlan (baseLength : Nat) (pieces : List Piece) : Option ArrayPlan := do
  let ranges ← orderedRanges none pieces
  some {
    removeRuns := unretainedRuns baseLength ranges.reverse
    permutation := none
    insertRuns := insertRunsOf pieces }

/-- `targetBase`: the base elements in the order of the pieces. -/
def targetBaseOf (pieces : List Piece) : List Int :=
  pieces.flatMap fun piece =>
    if isInsert piece then []
    else (List.range piece.length).map fun offset : Nat => piece.start + piece.step * offset

def markRetained (retained : List Bool) (index : Int) : List Bool :=
  if index < 0 then retained else retained.set index.toNat true

/-- Where the run of unretained elements before `stop` starts. -/
@[grind =] def unretainedStart (retained : List Bool) : Nat → Nat
  | 0 => 0
  | start + 1 => if retained.getD start false then start + 1 else unretainedStart retained start

theorem unretainedStart_le (retained : List Bool) (stop : Nat) :
    unretainedStart retained stop ≤ stop := by
  induction stop with
  | zero => exact Nat.le_refl 0
  | succ start ih =>
    rw [unretainedStart]
    split
    · exact Nat.le_refl _
    · omega

theorem unretainedStart_spec (retained : List Bool) (stop : Nat) :
    ∀ i, unretainedStart retained stop ≤ i → i < stop → retained.getD i false = false := by
  induction stop with
  | zero =>
    intro i _ hi
    omega
  | succ last ih =>
    intro i hstart hi
    rw [unretainedStart] at hstart
    split at hstart
    · omega
    · next hlast =>
      by_cases hend : i = last
      · rw [hend]
        exact Bool.eq_false_iff.2 hlast
      · exact ih i hstart (by omega)

@[grind =] def elementRemoveRuns (retained : List Bool) : Nat → List (Int × Int)
  | 0 => []
  | last + 1 =>
    if retained.getD last false then elementRemoveRuns retained last
    else
      let start := unretainedStart retained last
      ((start : Int), (last + 1 - start : Int)) :: elementRemoveRuns retained start
termination_by stop => stop
decreasing_by
  · omega
  · have := unretainedStart_le retained last
    omega

def elementArrayPlan (baseLength : Nat) (pieces : List Piece) : ArrayPlan :=
  let targetBase := targetBaseOf pieces
  let retained := targetBase.foldl markRetained (List.replicate baseLength false)
  let retainedBase := ((List.range baseLength).filter fun i => retained.getD i false).map Int.ofNat
  { removeRuns := elementRemoveRuns retained baseLength
    permutation :=
      if targetBase.zipIdx.any fun (value, index) => retainedBase[index]? ≠ some value then
        some (targetBase.map fun value => retainedBase.idxOf value)
      else none
    insertRuns := insertRunsOf pieces }

/-! ## Carrying out a plan -/

section
variable {β : Type}

def removeRun (xs : List β) (run : Int × Int) : List β :=
  xs.take run.1.toNat ++ xs.drop (run.1.toNat + run.2.toNat)

/-- `new[i] = old[permutation[i]]`. -/
def reorder (xs : List β) (permutation : List Nat) : List β := permutation.filterMap fun i => xs[i]?

def insertRun (items : Nat → Nat → List β) (xs : List β) (run : Nat × Nat × Nat) : List β :=
  xs.take run.1 ++ items run.2.1 run.2.2 ++ xs.drop run.1

/-- A plan on the base: what it removes, the order it gives to the rest, and what it inserts, which
is the items of the pieces from the first one to the end one. -/
def ArrayPlan.apply (plan : ArrayPlan) (base : List β) (items : Nat → Nat → List β) : List β :=
  let removed := plan.removeRuns.foldl removeRun base
  let reordered := (plan.permutation.map (reorder removed)).getD removed
  plan.insertRuns.foldl (insertRun items) reordered

/-! ## Values -/

def baseValues (value : Entry → β) (baseLength : Nat) : List β :=
  (List.range baseLength).map fun i : Nat => value (.base, i)

def itemValues (value : Entry → β) (pieces : List Piece) (first stop : Nat) : List β :=
  (entriesOf ((pieces.drop first).take (stop - first))).map value

def keptValues (value : Entry → β) (pieces : List Piece) : List β :=
  (targetBaseOf pieces).map fun i => value (.base, i)

theorem targetBaseOf_cons (piece : Piece) (pieces : List Piece) :
    targetBaseOf (piece :: pieces)
      = (if isInsert piece then []
          else (List.range piece.length).map fun offset : Nat =>
            piece.start + piece.step * offset) ++ targetBaseOf pieces := rfl

theorem keptValues_insert (value : Entry → β) {piece : Piece} (h : isInsert piece = true)
    (pieces : List Piece) : keptValues value (piece :: pieces) = keptValues value pieces := by
  rw [keptValues, targetBaseOf_cons, if_pos h, List.nil_append, keptValues]

theorem keptValues_base (value : Entry → β) {piece : Piece} (h : isInsert piece = false)
    (pieces : List Piece) :
    keptValues value (piece :: pieces) = piece.entries.map value ++ keptValues value pieces := by
  have horigin : piece.origin = .base := by
    rw [isInsert, decide_eq_false_iff_not, not_not] at h
    exact h
  rw [keptValues, targetBaseOf_cons, if_neg (by rw [h]; exact Bool.false_ne_true), List.map_append,
    List.map_map, Piece.entries, List.map_map, keptValues]
  congr 1
  apply List.map_congr_left
  intro i _
  rw [Function.comp, Function.comp, Piece.entry, horigin]

theorem keptValues_takeWhile (value : Entry → β) (pieces : List Piece) :
    keptValues value (pieces.dropWhile isInsert) = keptValues value pieces := by
  induction pieces with
  | nil => rfl
  | cons piece rest ih =>
    rw [List.dropWhile_cons]
    split
    · next h => rw [ih, keptValues_insert value h]
    · rfl

theorem length_entriesOf (pieces : List Piece) :
    (entriesOf pieces).length = (pieces.map Piece.length).sum := by
  induction pieces with
  | nil => rfl
  | cons piece rest ih =>
    rw [entriesOf_cons, List.length_append, Piece.length_entries, ih, List.map_cons, List.sum_cons]

/-- **The insert runs** complete what the base has of the pieces. -/
theorem foldl_insertRun (value : Entry → β) (pieces done rest : List Piece)
    (hpieces : pieces = done ++ rest) :
    (insertRunsFrom done.length (entriesOf done).length rest).foldl
        (insertRun (itemValues value pieces)) ((entriesOf done).map value ++ keptValues value rest)
      = (entriesOf pieces).map value := by
  induction hn : rest.length using Nat.strong_induction_on generalizing done rest with
  | _ n ih =>
    cases rest with
    | nil =>
      rw [insertRunsFrom, List.foldl_nil, hpieces, List.append_nil]
      exact List.append_nil _
    | cons piece rest =>
      rw [insertRunsFrom]
      cases hinsert : isInsert piece with
      | true =>
        rw [if_pos rfl]
        -- a whole run is inserted, and what follows it comes from the base again
        have hsplit : rest.takeWhile isInsert ++ rest.dropWhile isInsert = rest :=
          List.takeWhile_append_dropWhile
        generalize hrun : piece :: rest.takeWhile isInsert = run
        have hafter : pieces = (done ++ run) ++ rest.dropWhile isInsert := by
          rw [hpieces, ← hrun, List.append_assoc, List.cons_append, hsplit]
        have hlength : (entriesOf (done ++ run)).length
            = (entriesOf done).length + (run.map Piece.length).sum := by
          rw [entriesOf_append, List.length_append, length_entriesOf run]
        have hitems : itemValues value pieces done.length (done.length + run.length)
            = (entriesOf run).map value := by
          rw [itemValues, hafter, List.append_assoc, List.drop_left, Nat.add_sub_cancel_left,
            List.take_left]
        have hinserted : insertRun (itemValues value pieces)
            ((entriesOf done).map value ++ keptValues value (piece :: rest))
            ((entriesOf done).length, done.length, done.length + run.length)
            = (entriesOf (done ++ run)).map value
              ++ keptValues value (rest.dropWhile isInsert) := by
          have hprior : (entriesOf done).length = ((entriesOf done).map value).length := by simp
          rw [insertRun, hitems, hprior, List.take_left, List.drop_left, keptValues_insert value hinsert,
            keptValues_takeWhile, entriesOf_append, List.map_append]
        have hdone : done.length + run.length = (done ++ run).length := by simp
        show (insertRunsFrom (done.length + run.length)
          ((entriesOf done).length + (run.map Piece.length).sum) (rest.dropWhile isInsert)).foldl _
          (insertRun _ _ ((entriesOf done).length, done.length, done.length + run.length)) = _
        rw [hinserted, ← hlength, hdone]
        have hshorter := (List.dropWhile_sublist isInsert (l := rest)).length_le
        rw [List.length_cons] at hn
        exact ih _ (by omega) (done ++ run) _ hafter rfl
      | false =>
        rw [if_neg (by exact Bool.false_ne_true), keptValues_base value hinsert, ← List.append_assoc,
          ← List.map_append]
        have hlength : (entriesOf (done ++ [piece])).length
            = (entriesOf done).length + piece.length := by
          simp
        have hentries : entriesOf done ++ piece.entries = entriesOf (done ++ [piece]) := by simp
        have hdone : done.length + 1 = (done ++ [piece]).length := by simp
        rw [hentries, ← hlength, hdone]
        rw [List.length_cons] at hn
        refine ih rest.length (by omega) (done ++ [piece]) rest ?_ rfl
        rw [hpieces, List.append_assoc]
        rfl

/-! ## What is removed -/

theorem reorder_take_append (xs : List β) {cut stop : Nat} (hcut : cut ≤ xs.length)
    {indices : List Nat} (h : ∀ i ∈ indices, i < cut) :
    reorder (xs.take cut ++ xs.drop stop) indices = reorder xs indices := by
  apply List.filterMap_congr
  intro i hi
  have hlt := h i hi
  rw [List.getElem?_append_left (by rw [List.length_take]; omega), List.getElem?_take_of_lt hlt]

/-- **The walk's runs**, taken from the end, leave the retained elements. -/
theorem foldl_elementRemoveRuns (retained : List Bool) (stop : Nat) (xs : List β)
    (hstop : stop ≤ xs.length) :
    (elementRemoveRuns retained stop).foldl removeRun xs
      = reorder xs ((List.range stop).filter fun i => retained.getD i false) ++ xs.drop stop := by
  induction stop using Nat.strong_induction_on generalizing xs with
  | _ stop ih =>
    cases stop with
    | zero => simp [elementRemoveRuns, reorder]
    | succ last =>
      rw [elementRemoveRuns]
      by_cases hlast : retained.getD last false = true
      · rw [if_pos hlast, ih last (by omega) xs (by omega), List.range_succ, List.filter_append,
          List.filter_cons_of_pos (by exact hlast), List.filter_nil, reorder, reorder, List.filterMap_append,
          List.append_assoc, List.drop_eq_getElem_cons (show last < xs.length by omega)]
        congr 1
        rw [List.filterMap_cons, List.getElem?_eq_getElem (show last < xs.length by omega)]
        rfl
      · rw [if_neg hlast]
        have hle := unretainedStart_le retained last
        have hbetween := unretainedStart_spec retained last
        generalize unretainedStart retained last = start at hle hbetween ⊢
        have hrun : removeRun xs ((start : Int), (last + 1 - start : Int))
            = xs.take start ++ xs.drop (last + 1) := by
          have hlength : start + (last + 1 - start : Int).toNat = last + 1 := by omega
          rw [removeRun]
          simp only [Int.toNat_natCast, hlength]
        have hlength : start ≤ (xs.take start ++ xs.drop (last + 1)).length := by
          rw [List.length_append, List.length_take]
          omega
        have hdrop : (xs.take start ++ xs.drop (last + 1)).drop start = xs.drop (last + 1) := by
          have : (xs.take start).length = start := by
            rw [List.length_take]
            omega
          exact List.drop_left' this
        -- nothing from the start of the run on is retained
        have hfilter : (List.range (last + 1)).filter (fun i => retained.getD i false)
            = (List.range start).filter fun i => retained.getD i false := by
          have hrange : last + 1 = start + (last + 1 - start) := by omega
          rw [hrange, List.range_add, List.filter_append]
          refine (congrArg _ (List.filter_eq_nil_iff.2 ?_)).trans (List.append_nil _)
          intro i hi
          obtain ⟨offset, hoffset, rfl⟩ := List.mem_map.1 hi
          rw [List.mem_range] at hoffset
          by_cases hend : start + offset = last
          · rw [hend]
            exact hlast
          · rw [hbetween (start + offset) (by omega) (by omega)]
            exact Bool.false_ne_true
        rw [List.foldl_cons, hrun, ih start (by omega) _ hlength, hdrop, hfilter,
          reorder_take_append xs (by omega)]
        intro i hi
        exact List.mem_range.1 (List.mem_filter.1 hi).1

def rangeIndices (range : Int × Int) : List Nat :=
  (List.range (range.2 + 1 - range.1).toNat).map (range.1.toNat + ·)

theorem reorder_run (xs : List β) (first length : Nat) :
    reorder xs ((List.range length).map (first + ·)) = (xs.drop first).take length := by
  induction length with
  | zero => rfl
  | succ length ih =>
    rw [List.range_succ, List.map_append, reorder, List.filterMap_append, ← reorder, ih,
      List.take_add_one, List.getElem?_drop]
    rfl

/-- **The runs between ranges**, taken from the end, leave the ranges. -/
theorem foldl_unretainedRuns (ranges : List (Int × Int)) (stop : Int) (xs : List β)
    (hstop : 0 ≤ stop ∧ stop ≤ xs.length) (hordered : ranges.Pairwise fun a b => b.2 < a.1)
    (hwithin : ∀ range ∈ ranges, 0 ≤ range.1 ∧ range.1 ≤ range.2 ∧ range.2 < stop) :
    (unretainedRuns stop ranges).foldl removeRun xs
      = reorder xs (ranges.reverse.flatMap rangeIndices) ++ xs.drop stop.toNat := by
  induction ranges generalizing stop xs with
  | nil =>
    rw [unretainedRuns]
    split
    · simp [removeRun, reorder]
    · have : stop = 0 := by omega
      simp [reorder, this]
  | cons range ranges ih =>
    obtain ⟨first, last⟩ := range
    obtain ⟨hfirst, hrange, hlast⟩ := hwithin (first, last) List.mem_cons_self
    obtain ⟨hbefore, hordered⟩ := List.pairwise_cons.1 hordered
    simp only at hfirst hrange hlast hbefore
    -- what is between this range and the next, if anything, is removed first
    have hgap : (if stop > last + 1 then [(last + 1, stop - (last + 1))] else []).foldl removeRun xs
        = xs.take (last + 1).toNat ++ xs.drop stop.toNat := by
      split
      · have hlength : (last + 1).toNat + (stop - (last + 1)).toNat = stop.toNat := by omega
        rw [List.foldl_cons, List.foldl_nil, removeRun]
        simp only [hlength]
      · have hnext : stop = last + 1 := by omega
        rw [hnext, List.take_append_drop, List.foldl_nil]
    have hcut : (last + 1).toNat ≤ xs.length := by omega
    have hlength : (xs.take (last + 1).toNat).length = (last + 1).toNat := by
      rw [List.length_take]
      omega
    have hrest := ih first (xs.take (last + 1).toNat ++ xs.drop stop.toNat)
      ⟨hfirst, by rw [List.length_append, hlength]; omega⟩ hordered fun range hmem =>
        have hrange := hwithin range (List.mem_cons_of_mem _ hmem)
        ⟨hrange.1, hrange.2.1, hbefore range hmem⟩
    have hindices : ∀ i ∈ ranges.reverse.flatMap rangeIndices, i < (last + 1).toNat := by
      intro i hi
      obtain ⟨range, hmem, hi⟩ := List.mem_flatMap.1 hi
      rw [List.mem_reverse] at hmem
      obtain ⟨offset, hoffset, rfl⟩ := List.mem_map.1 hi
      rw [List.mem_range] at hoffset
      have := hbefore range hmem
      have := hwithin range (List.mem_cons_of_mem _ hmem)
      omega
    rw [unretainedRuns, List.foldl_append, hgap, hrest, reorder_take_append xs hcut hindices,
      List.drop_append_of_le_length (by omega), List.reverse_cons, List.flatMap_append, reorder,
      reorder, List.filterMap_append, ← reorder, ← reorder, List.append_assoc]
    congr 2
    rw [List.flatMap_cons, List.flatMap_nil, List.append_nil, rangeIndices, reorder_run,
      List.drop_take]
    congr 1
    omega

variable {baseLength : Nat}

theorem reorder_baseValues (value : Entry → β) {indices : List Nat}
    (h : ∀ i ∈ indices, i < baseLength) :
    reorder (baseValues value baseLength) indices = indices.map fun i : Nat => value (.base, i) := by
  induction indices with
  | nil => rfl
  | cons i rest ih =>
    have hi := h i List.mem_cons_self
    rw [reorder, List.filterMap_cons, baseValues, List.getElem?_map, List.getElem?_range hi,
      List.map_cons, ← ih fun j hj => h j (List.mem_cons_of_mem _ hj)]
    rfl

/-! ## The plan from the pieces alone -/

/-- **The ranges** ascend, and are the base elements of the pieces. -/
theorem orderedRanges_spec (pieces : List Piece) {previous : Option Int} {ranges : List (Int × Int)}
    (h : orderedRanges previous pieces = some ranges)
    (hvalid : ∀ i ∈ targetBaseOf pieces, 0 ≤ i ∧ i < baseLength) :
    ranges.Pairwise (fun a b => a.2 < b.1)
      ∧ (∀ range ∈ ranges, (∀ before, previous = some before → before < range.1)
          ∧ 0 ≤ range.1 ∧ range.1 ≤ range.2 ∧ range.2 < baseLength)
      ∧ (ranges.flatMap rangeIndices).map Int.ofNat = targetBaseOf pieces := by
  induction pieces generalizing previous ranges with
  | nil =>
    obtain rfl : [] = ranges := Option.some.inj h
    exact ⟨.nil, fun range hmem => absurd hmem List.not_mem_nil, rfl⟩
  | cons piece rest ih =>
    rw [targetBaseOf_cons] at hvalid ⊢
    have hrest : ∀ i ∈ targetBaseOf rest, 0 ≤ i ∧ i < baseLength :=
      fun i hi => hvalid i (List.mem_append_right _ hi)
    rw [orderedRanges] at h
    split at h
    · next hskip =>
      -- an insert piece, or an empty one, has no base element
      have hnone : (if isInsert piece then [] else (List.range piece.length).map fun offset : Nat =>
          piece.start + piece.step * offset) = [] := by
        obtain hinsert | hempty := hskip
        · exact if_pos hinsert
        · rw [hempty, List.range_zero, List.map_nil, ite_self]
      rw [hnone, List.nil_append]
      exact ih h hrest
    next hskip =>
    obtain ⟨hbase, hlength⟩ := not_or.1 hskip
    split at h
    · cases h
    next hstep =>
    split at h
    · cases h
    next hafter =>
    obtain ⟨later, hranges, hsome⟩ := Option.bind_eq_some_iff.1 h
    obtain rfl := Option.some.inj hsome
    obtain ⟨hpairwise, hall, hindices⟩ := ih hranges hrest
    rw [if_neg hbase] at hvalid ⊢
    -- a piece that goes backwards has one element only
    have helements : ((List.range piece.length).map fun offset : Nat =>
        piece.start + piece.step * offset)
        = (List.range piece.length).map fun offset : Nat => piece.start + (offset : Int) := by
      apply List.map_congr_left
      intro offset hoffset
      rw [List.mem_range] at hoffset
      obtain hone | hmany := Decidable.em (piece.step = 1)
      · rw [hone, one_mul]
      · obtain rfl : offset = 0 := by
          have : ¬ piece.length > 1 := fun h => hstep ⟨hmany, h⟩
          omega
        simp
    rw [helements] at hvalid ⊢
    have hfirst := hvalid (piece.start + ((0 : Nat) : Int)) (List.mem_append_left _
      (List.mem_map.2 ⟨0, List.mem_range.2 (by omega), rfl⟩))
    have hlast := hvalid (piece.start + ((piece.length - 1 : Nat) : Int)) (List.mem_append_left _
      (List.mem_map.2 ⟨piece.length - 1, List.mem_range.2 (by omega), rfl⟩))
    refine ⟨List.pairwise_cons.2 ⟨?_, hpairwise⟩, ?_, ?_⟩
    · intro range hmem
      exact (hall range hmem).1 _ rfl
    · intro range hmem
      obtain rfl | hmem := List.mem_cons.1 hmem
      · refine ⟨?_, by simp only; omega, by simp only; omega, by simp only; omega⟩
        intro before hbefore
        rw [hbefore, Option.any_some, decide_eq_true_eq] at hafter
        simp only
        omega
      · obtain ⟨hprevious, hrange⟩ := hall range hmem
        refine ⟨?_, hrange⟩
        intro before hbefore
        rw [hbefore, Option.any_some, decide_eq_true_eq] at hafter
        have := hprevious _ rfl
        omega
    · rw [List.flatMap_cons, List.map_append, hindices, rangeIndices, List.map_map]
      have hcount : (piece.start + piece.length - 1 + 1 - piece.start).toNat = piece.length := by
        omega
      simp only [hcount]
      congr 1
      apply List.map_congr_left
      intro offset _
      rw [Function.comp]
      simp only [Int.ofNat_eq_natCast]
      omega

/-- **The ordered plan is exact.** -/
theorem apply_orderedArrayPlan (value : Entry → β) {pieces : List Piece}
    (hvalid : ∀ i ∈ targetBaseOf pieces, 0 ≤ i ∧ i < baseLength) {plan : ArrayPlan}
    (h : orderedArrayPlan baseLength pieces = some plan) :
    plan.apply (baseValues value baseLength) (itemValues value pieces)
      = (entriesOf pieces).map value := by
  obtain ⟨ranges, hranges, hsome⟩ := Option.bind_eq_some_iff.1 h
  obtain rfl := Option.some.inj hsome
  obtain ⟨hpairwise, hall, hindices⟩ := orderedRanges_spec pieces hranges hvalid
  have hlength : (baseValues value baseLength).length = baseLength := by simp [baseValues]
  have hlt : ∀ i ∈ ranges.flatMap rangeIndices, i < baseLength := by
    intro i hi
    have hmem : (i : Int) ∈ targetBaseOf pieces := hindices ▸ List.mem_map.2 ⟨i, hi, rfl⟩
    have := (hvalid i hmem).2
    omega
  have hremoved : (unretainedRuns baseLength ranges.reverse).foldl removeRun
      (baseValues value baseLength) = keptValues value pieces := by
    rw [foldl_unretainedRuns ranges.reverse baseLength _ ⟨by omega, by omega⟩
      (List.pairwise_reverse.2 hpairwise) fun range hmem =>
        (hall range (List.mem_reverse.1 hmem)).2,
      List.reverse_reverse, reorder_baseValues value hlt, List.drop_of_length_le (by omega),
      List.append_nil, keptValues, ← hindices, List.map_map]
    rfl
  rw [ArrayPlan.apply]
  simp only [Option.map_none, Option.getD_none, hremoved]
  exact foldl_insertRun value pieces [] pieces rfl

/-! ## The plan from a walk over the base -/

theorem getD_foldl_markRetained (indices : List Int) (retained : List Bool) {i : Nat}
    (hi : i < retained.length) :
    (indices.foldl markRetained retained).getD i false
      = (retained.getD i false || decide ((i : Int) ∈ indices)) := by
  induction indices generalizing retained with
  | nil => simp
  | cons index rest ih =>
    have hlength : (markRetained retained index).length = retained.length := by
      rw [markRetained]
      split
      · rfl
      · exact List.length_set
    have hmark : (markRetained retained index).getD i false
        = (retained.getD i false || decide ((i : Int) = index)) := by
      rw [markRetained]
      split
      · have : (i : Int) ≠ index := by omega
        simp [this]
      · by_cases hsame : index.toNat = i
        · have : (i : Int) = index := by omega
          simp [hsame, this, hi]
        · have : (i : Int) ≠ index := by omega
          simp [hsame, this]
    rw [List.foldl_cons, ih _ (by omega), hmark, Bool.or_assoc]
    congr 1
    simp [List.mem_cons]

def retainedIndices (baseLength : Nat) (pieces : List Piece) : List Nat :=
  (List.range baseLength).filter fun i => decide ((i : Int) ∈ targetBaseOf pieces)

theorem filter_retained (baseLength : Nat) (pieces : List Piece) :
    ((List.range baseLength).filter fun i =>
        ((targetBaseOf pieces).foldl markRetained (List.replicate baseLength false)).getD i false)
      = retainedIndices baseLength pieces := by
  apply List.filter_congr
  intro i hi
  rw [List.mem_range] at hi
  rw [getD_foldl_markRetained _ _ (by rw [List.length_replicate]; exact hi)]
  simp [List.getD_eq_getElem?_getD, hi]

theorem nodup_retainedIndices (baseLength : Nat) (pieces : List Piece) :
    ((retainedIndices baseLength pieces).map Int.ofNat).Nodup :=
  (List.nodup_range.filter _).map fun _ _ h => Int.ofNat.inj h

theorem mem_retainedIndices {pieces : List Piece}
    (hvalid : ∀ i ∈ targetBaseOf pieces, 0 ≤ i ∧ i < baseLength) (index : Int) :
    index ∈ (retainedIndices baseLength pieces).map Int.ofNat ↔ index ∈ targetBaseOf pieces := by
  constructor
  · intro h
    obtain ⟨i, hi, rfl⟩ := List.mem_map.1 h
    exact of_decide_eq_true (List.mem_filter.1 hi).2
  · intro h
    obtain ⟨hnonneg, hlt⟩ := hvalid index h
    have hindex : Int.ofNat index.toNat = index := Int.toNat_of_nonneg hnonneg
    refine List.mem_map.2 ⟨index.toNat, List.mem_filter.2 ⟨?_, ?_⟩, hindex⟩
    · rw [List.mem_range]
      omega
    · rw [Int.toNat_of_nonneg hnonneg]
      exact decide_eq_true h

theorem eq_of_zipIdx {xs ys : List Int} (hnodup : ys.Nodup) (hmem : ∀ y ∈ ys, y ∈ xs)
    (h : (xs.zipIdx.any fun (value, index) => ys[index]? ≠ some value) = false) : xs = ys := by
  have hread : ∀ index, index < xs.length → ys[index]? = xs[index]? := by
    intro index hindex
    rw [List.any_eq_false] at h
    have := h (xs[index], index) (List.mem_zipIdx_iff_getElem?.2 (List.getElem?_eq_getElem hindex))
    rw [List.getElem?_eq_getElem hindex]
    simpa using this
  have hstart : xs = ys.take xs.length := by
    apply List.ext_getElem?
    intro index
    rw [List.getElem?_take]
    split
    · next hindex => exact (hread index hindex).symm
    · next hindex => exact List.getElem?_eq_none (by omega)
  -- what follows the start is in it already, so there is nothing
  have hsplit : xs ++ ys.drop xs.length = ys := calc
    xs ++ ys.drop xs.length = ys.take xs.length ++ ys.drop xs.length := by rw [← hstart]
    _ = ys := List.take_append_drop _ _
  have hnone : ys.drop xs.length = [] := by
    apply List.eq_nil_iff_forall_not_mem.2
    intro y hy
    rw [← hsplit] at hnodup
    exact (List.disjoint_of_nodup_append hnodup) (hmem y (hsplit ▸ List.mem_append_right _ hy)) hy
  rw [hnone, List.append_nil] at hsplit
  exact hsplit

theorem reorder_idxOf (value : Int → β) {retained target : List Int}
    (hmem : ∀ i ∈ target, i ∈ retained) :
    reorder (retained.map value) (target.map fun i => retained.idxOf i) = target.map value := by
  induction target with
  | nil => rfl
  | cons i rest ih =>
    have hi := hmem i List.mem_cons_self
    rw [List.map_cons, reorder, List.filterMap_cons, List.getElem?_map,
      List.getElem?_idxOf hi, List.map_cons, ← ih fun j hj => hmem j (List.mem_cons_of_mem _ hj)]
    rfl

theorem removed_elementArrayPlan (value : Entry → β) (baseLength : Nat) (pieces : List Piece) :
    (elementArrayPlan baseLength pieces).removeRuns.foldl removeRun (baseValues value baseLength)
      = ((retainedIndices baseLength pieces).map Int.ofNat).map fun i => value (.base, i) := by
  have hlength : (baseValues value baseLength).length = baseLength := by simp [baseValues]
  rw [elementArrayPlan]
  simp only
  rw [foldl_elementRemoveRuns _ _ _ (by omega), filter_retained, reorder_baseValues,
    List.drop_of_length_le (by omega), List.append_nil, List.map_map]
  · rfl
  · intro i hi
    exact List.mem_range.1 (List.mem_filter.1 hi).1

/-- **The walk's plan is exact.** -/
theorem apply_elementArrayPlan (value : Entry → β) {pieces : List Piece}
    (hvalid : ∀ i ∈ targetBaseOf pieces, 0 ≤ i ∧ i < baseLength) :
    (elementArrayPlan baseLength pieces).apply (baseValues value baseLength)
      (itemValues value pieces) = (entriesOf pieces).map value := by
  have hmem := mem_retainedIndices hvalid
  rw [ArrayPlan.apply, removed_elementArrayPlan]
  have hreordered : ((elementArrayPlan baseLength pieces).permutation.map (reorder
        (((retainedIndices baseLength pieces).map Int.ofNat).map fun i => value (.base, i)))).getD
        (((retainedIndices baseLength pieces).map Int.ofNat).map fun i => value (.base, i))
      = keptValues value pieces := by
    rw [elementArrayPlan]
    simp only [filter_retained]
    split
    · rw [Option.map_some, Option.getD_some,
        reorder_idxOf (fun i => value (.base, i)) fun i hi => (hmem i).2 hi]
      rfl
    · next hany =>
      rw [Bool.not_eq_true] at hany
      rw [Option.map_none, Option.getD_none, keptValues,
        eq_of_zipIdx (nodup_retainedIndices baseLength pieces) (fun i hi => (hmem i).1 hi) hany]
  rw [hreordered]
  exact foldl_insertRun value pieces [] pieces rfl

/-- **The new order is a bijection** where no base element is there twice. -/
theorem permutation_elementArrayPlan (value : Entry → β) {pieces : List Piece}
    (hvalid : ∀ i ∈ targetBaseOf pieces, 0 ≤ i ∧ i < baseLength)
    (hnodup : (targetBaseOf pieces).Nodup) {permutation : List Nat}
    (h : (elementArrayPlan baseLength pieces).permutation = some permutation) :
    permutation.Perm (List.range ((elementArrayPlan baseLength pieces).removeRuns.foldl removeRun
      (baseValues value baseLength)).length) := by
  rw [removed_elementArrayPlan, List.length_map]
  rw [elementArrayPlan] at h
  simp only [filter_retained] at h
  split at h
  · obtain rfl := Option.some.inj h
    have hretained := nodup_retainedIndices baseLength pieces
    have hperm : (targetBaseOf pieces).Perm ((retainedIndices baseLength pieces).map Int.ofNat) :=
      (List.perm_ext_iff_of_nodup hnodup hretained).2 fun i => (mem_retainedIndices hvalid i).symm
    generalize (retainedIndices baseLength pieces).map Int.ofNat = retained at hretained hperm ⊢
    refine (hperm.map _).trans ?_
    have hpositions : (retained.map fun i => retained.idxOf i) = List.range retained.length := by
      apply List.ext_getElem
      · rw [List.length_map, List.length_range]
      · intro i hi _
        rw [List.length_map] at hi
        rw [List.getElem_map, List.getElem_range, hretained.idxOf_getElem]
    rw [hpositions]
  · cases h

end

end ThreeXhaust.Delta.Pieces
