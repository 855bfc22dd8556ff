import ThreeXhaust.Lib.Run
import Mathlib.Data.List.Basic
import Mathlib.Tactic.Ring

/-!
# The pieces of a drafted array

`tracker.ts`: the draft of an array is a treap of pieces, each of which is a run of the base array
or of an inserted list, read forwards or backwards. This module has the tree and what its
operations do to the entries it stands for.
-/

namespace ThreeXhaust.Delta.Pieces

/-! ## The source -/

/-- What a piece is a run of: the base array, or the inserted list with that number. -/
inductive Origin where
  | base
  | insert (source : Nat)
deriving DecidableEq

structure Piece where
  origin : Origin
  start : Int
  length : Nat
  step : Int
deriving DecidableEq

inductive PieceTree where
  | empty
  | node (left : PieceTree) (piece : Piece) (right : PieceTree) (priority : UInt32)
      (elements : Nat)
deriving DecidableEq

def treeElements : PieceTree → Nat
  | .empty => 0
  | .node _ _ _ _ elements => elements

/-- `updatePieceNode` on a node with these parts. -/
def updatePieceNode (left : PieceTree) (piece : Piece) (right : PieceTree) (priority : UInt32) :
    PieceTree :=
  .node left piece right priority (treeElements left + piece.length + treeElements right)

def nextPiecePriority (seed : UInt32) : UInt32 :=
  let value := seed ^^^ (seed <<< 13)
  let value := value ^^^ (value >>> 17)
  value ^^^ (value <<< 5)

def createPieceNode (piece : Piece) (seed : UInt32) : PieceTree × UInt32 :=
  let priority := nextPiecePriority seed
  (.node .empty piece .empty priority piece.length, priority)

/-- The calls of `mergePieceTrees` that go down the right tree, up to the one that goes below the
root of the left one. -/
@[grind =] def mergeBelow (left : PieceTree) (priority : UInt32) (below : PieceTree → PieceTree) :
    PieceTree → PieceTree
  | .empty => left
  | .node rl rp rr rpriority rn =>
    if priority ≥ rpriority then below (.node rl rp rr rpriority rn)
    else updatePieceNode (mergeBelow left priority below rl) rp rr rpriority

@[grind =] def mergePieceTrees : PieceTree → PieceTree → PieceTree
  | .empty => fun right => right
  | .node ll lp lr lpriority ln =>
    mergeBelow (.node ll lp lr lpriority ln) lpriority fun right =>
      updatePieceNode ll lp (mergePieceTrees lr right) lpriority

theorem mergePieceTrees_node (ll lr rl rr : PieceTree) (lp rp : Piece) (lpriority rpriority : UInt32)
    (ln rn : Nat) :
    mergePieceTrees (.node ll lp lr lpriority ln) (.node rl rp rr rpriority rn)
      = if lpriority ≥ rpriority then
          updatePieceNode ll lp (mergePieceTrees lr (.node rl rp rr rpriority rn)) lpriority
        else
          updatePieceNode (mergePieceTrees (.node ll lp lr lpriority ln) rl) rp rr rpriority := rfl

@[grind =] def splitPieceTree : PieceTree → Nat → UInt32 → (PieceTree × PieceTree) × UInt32
  | .empty, _, seed => ((.empty, .empty), seed)
  | .node left piece right priority _, index, seed =>
    let leftLength := treeElements left
    let pieceEnd := leftLength + piece.length
    if index < leftLength then
      let ((first, rest), seed) := splitPieceTree left index seed
      ((first, updatePieceNode rest piece right priority), seed)
    else if index > pieceEnd then
      let ((first, rest), seed) := splitPieceTree right (index - pieceEnd) seed
      ((updatePieceNode left piece first priority, rest), seed)
    else if index = leftLength then
      ((left, updatePieceNode .empty piece right priority), seed)
    else if index = pieceEnd then
      ((updatePieceNode left piece .empty priority, right), seed)
    else
      let offset := index - leftLength
      let (first, seed) := createPieceNode { piece with length := offset } seed
      let (second, seed) := createPieceNode
        { piece with start := piece.start + piece.step * offset, length := piece.length - offset }
        seed
      ((mergePieceTrees left first, mergePieceTrees second right), seed)

@[grind =] def leftmostPiece : PieceTree → Option Piece
  | .empty => none
  | .node .empty piece _ _ _ => some piece
  | .node left _ _ _ _ => leftmostPiece left

@[grind =] def rightmostPiece : PieceTree → Option Piece
  | .empty => none
  | .node _ piece .empty _ _ => some piece
  | .node _ _ right _ _ => rightmostPiece right

def mergeablePieces (left right : Piece) : Bool :=
  left.origin = right.origin &&
    (if left.length = 1 ∧ right.length = 1 then (right.start - left.start).natAbs = 1
      else left.step = right.step && left.start + left.step * left.length = right.start)

def combinedPiece (left right : Piece) : Piece where
  origin := left.origin
  start := left.start
  length := left.length + right.length
  step := if left.length = 1 then right.start - left.start else left.step

/-- `none` where the calls do not end in time. -/
@[grind =] def joinNormalized : Nat → PieceTree → PieceTree → UInt32 → Option (PieceTree × UInt32)
  | 0, _, _, _ => none
  | fuel + 1, left, right, seed =>
    match rightmostPiece left, leftmostPiece right with
    | none, _ => some (right, seed)
    | _, none => some (left, seed)
    | some leftPiece, some rightPiece =>
      if mergeablePieces leftPiece rightPiece then do
        let ((leftRest, _), seed) :=
          splitPieceTree left (treeElements left - leftPiece.length) seed
        let ((_, rightRest), seed) := splitPieceTree right rightPiece.length seed
        let (middle, seed) := createPieceNode (combinedPiece leftPiece rightPiece) seed
        let (joined, seed) ← joinNormalized fuel leftRest middle seed
        joinNormalized fuel joined rightRest seed
      else some (mergePieceTrees left right, seed)

@[grind =] def flattenPieceTree : PieceTree → List Piece
  | .empty => []
  | .node left piece right _ _ => flattenPieceTree left ++ piece :: flattenPieceTree right

/-- The loop of `mergePieces`: the piece before the index, and those from it on. -/
@[grind =] def mergePiecesFrom (left : Piece) : List Piece → List Piece
  | [] => [left]
  | right :: rest =>
    if left.origin = right.origin ∧ left.length = 1 ∧ right.length = 1
        ∧ (right.start - left.start).natAbs = 1 then
      mergePiecesFrom { left with step := right.start - left.start, length := 2 } rest
    else if left.origin = right.origin ∧ left.step = right.step
        ∧ left.start + left.step * left.length = right.start then
      mergePiecesFrom { left with length := left.length + right.length } rest
    else left :: mergePiecesFrom right rest

def mergePieces : List Piece → List Piece
  | [] => []
  | piece :: rest => mergePiecesFrom piece rest

def appendPiece (tree : PieceTree × UInt32) (piece : Piece) : PieceTree × UInt32 :=
  let (node, seed) := createPieceNode piece tree.2
  (mergePieceTrees tree.1 node, seed)

def treeFromPieces (pieces : List Piece) (seed : UInt32) : PieceTree × UInt32 :=
  (mergePieces pieces).foldl appendPiece (.empty, seed)

/-- `locatePiece`: the piece and the offset in it; `none` is the `RangeError`. -/
@[grind =] def locatePiece : PieceTree → Nat → Option (Piece × Nat)
  | .empty, _ => none
  | .node left piece right _ _, index =>
    let leftLength := treeElements left
    if index < leftLength then locatePiece left index
    else if index ≥ leftLength + piece.length then
      locatePiece right (index - (leftLength + piece.length))
    else some (piece, index - leftLength)

@[grind =] def extendRightmostPiece : PieceTree → Nat → PieceTree
  | .empty, _ => .empty
  | .node left piece .empty priority _, amount =>
    updatePieceNode left { piece with length := piece.length + amount } .empty priority
  | .node left piece right priority _, amount =>
    updatePieceNode left piece (extendRightmostPiece right amount) priority

/-! ## Entries -/

/-- An item of the base array or of an inserted list. -/
abbrev Entry := Origin × Int

def Piece.entry (piece : Piece) (offset : Nat) : Entry :=
  (piece.origin, piece.start + piece.step * offset)

def Piece.entries (piece : Piece) : List Entry := (List.range piece.length).map piece.entry

def entriesOf (pieces : List Piece) : List Entry := pieces.flatMap Piece.entries

def PieceTree.entries (tree : PieceTree) : List Entry := entriesOf (flattenPieceTree tree)

@[simp] theorem Piece.length_entries (piece : Piece) : piece.entries.length = piece.length := by
  simp [Piece.entries]

@[simp] theorem entriesOf_nil : entriesOf [] = [] := rfl

@[simp] theorem entriesOf_cons (piece : Piece) (pieces : List Piece) :
    entriesOf (piece :: pieces) = piece.entries ++ entriesOf pieces := rfl

@[simp] theorem entriesOf_append (xs ys : List Piece) :
    entriesOf (xs ++ ys) = entriesOf xs ++ entriesOf ys :=
  List.flatMap_append

theorem Piece.entries_cut (piece : Piece) {offset : Nat} (h : offset ≤ piece.length) :
    ({ piece with length := offset } : Piece).entries
      ++ ({ piece with
            start := piece.start + piece.step * offset
            length := piece.length - offset } : Piece).entries = piece.entries := by
  have hlength : piece.length = offset + (piece.length - offset) := by omega
  conv_rhs => rw [Piece.entries, hlength, List.range_add, List.map_append, List.map_map]
  rw [Piece.entries, Piece.entries]
  congr 1
  apply List.map_congr_left
  intro i _
  simp only [Piece.entry, Function.comp, Prod.mk.injEq, true_and]
  push_cast
  ring

theorem Piece.entries_congr {p q : Piece} (horigin : p.origin = q.origin)
    (hstart : p.start = q.start) (hlength : p.length = q.length)
    (hstep : p.step = q.step ∨ p.length ≤ 1) : p.entries = q.entries := by
  rw [Piece.entries, Piece.entries, ← hlength]
  apply List.map_congr_left
  intro i hi
  rw [List.mem_range] at hi
  rw [Piece.entry, Piece.entry, horigin, hstart]
  obtain hstep | hone := hstep
  · rw [hstep]
  · obtain rfl : i = 0 := by omega
    simp

variable {piece right : Piece}

theorem entries_continued {left : Piece} (hleft : left.origin = piece.origin)
    (hright : right.origin = piece.origin) (hstart : left.start = piece.start)
    (hlength : piece.length = left.length + right.length)
    (hnext : piece.start + piece.step * left.length = right.start)
    (hstep : left.step = piece.step ∨ left.length ≤ 1)
    (hstep' : right.step = piece.step ∨ right.length ≤ 1) :
    piece.entries = left.entries ++ right.entries := by
  have hfirst : left.entries = ({ piece with length := left.length } : Piece).entries :=
    Piece.entries_congr hleft hstart rfl hstep
  have hsecond : right.entries = ({ piece with
      start := piece.start + piece.step * (left.length : Int)
      length := piece.length - left.length } : Piece).entries := by
    refine Piece.entries_congr hright hnext.symm ?_ hstep'
    show right.length = piece.length - left.length
    omega
  have hcut : left.length ≤ piece.length := by omega
  rw [hfirst, hsecond, piece.entries_cut hcut]

/-- **Merged pieces** stand for the entries of both. -/
theorem entries_combined {left : Piece} (h : mergeablePieces left right = true) :
    (combinedPiece left right).entries = left.entries ++ right.entries := by
  rw [mergeablePieces, Bool.and_eq_true, decide_eq_true_eq] at h
  obtain ⟨horigin, hnext⟩ := h
  by_cases hsingle : left.length = 1 ∧ right.length = 1
  · refine entries_continued rfl horigin.symm rfl rfl ?_ (.inr (by omega)) (.inr (by omega))
    simp only [combinedPiece, hsingle.1, if_true]
    push_cast
    omega
  · rw [if_neg hsingle, Bool.and_eq_true, decide_eq_true_eq, decide_eq_true_eq] at hnext
    obtain ⟨hstep, hnext⟩ := hnext
    -- a single entry in front takes the step from its distance to the next
    have hcombined : (combinedPiece left right).step = left.step := by
      simp only [combinedPiece]
      split
      · next hone =>
        rw [hone] at hnext
        push_cast at hnext
        omega
      · rfl
    refine entries_continued rfl horigin.symm rfl rfl ?_ (.inl hcombined.symm)
      (.inl (hstep.symm.trans hcombined.symm))
    rw [hcombined]
    exact hnext

theorem entriesOf_mergePiecesFrom (left : Piece) (pieces : List Piece) :
    entriesOf (mergePiecesFrom left pieces) = left.entries ++ entriesOf pieces := by
  induction pieces generalizing left with
  | nil => rw [mergePiecesFrom, entriesOf_cons]
  | cons right rest ih =>
    rw [mergePiecesFrom, entriesOf_cons]
    split
    · next h =>
      obtain ⟨horigin, hleft, hright, -⟩ := h
      rw [ih, ← List.append_assoc]
      congr 1
      refine entries_continued rfl horigin.symm rfl ?_ ?_ (.inr (by omega)) (.inr (by omega))
      · show 2 = left.length + right.length
        omega
      · show left.start + (right.start - left.start) * (left.length : Int) = right.start
        rw [hleft]
        push_cast
        omega
    split
    · next h =>
      obtain ⟨horigin, hstep, hnext⟩ := h
      rw [ih, ← List.append_assoc]
      congr 1
      exact entries_continued rfl horigin.symm rfl rfl hnext (.inl rfl) (.inl hstep.symm)
    · rw [entriesOf_cons, ih]

/-- **Merging a list** of pieces keeps its entries. -/
theorem entriesOf_mergePieces (pieces : List Piece) :
    entriesOf (mergePieces pieces) = entriesOf pieces := by
  cases pieces with
  | nil => rfl
  | cons piece rest => exact entriesOf_mergePiecesFrom piece rest

/-! ## Trees that know their length -/

structure Piece.Sound (piece : Piece) : Prop where
  length_pos : 0 < piece.length
  step_unit : piece.step = 1 ∨ piece.step = -1

theorem Piece.Sound.cut (h : piece.Sound) {start : Int} {length : Nat} (hlength : 0 < length)
    : ({ piece with start, length } : Piece).Sound :=
  ⟨hlength, h.step_unit⟩

inductive Sized : PieceTree → Prop
  | empty : Sized .empty
  | node {left right : PieceTree} {piece : Piece} {priority : UInt32} {elements : Nat}
      (hleft : Sized left) (hright : Sized right) (hpiece : piece.Sound)
      (helements : elements = treeElements left + piece.length + treeElements right) :
      Sized (.node left piece right priority elements)

theorem sized_updatePieceNode {left right : PieceTree} {priority : UInt32} (hleft : Sized left)
    (hright : Sized right) (hpiece : piece.Sound) :
    Sized (updatePieceNode left piece right priority) :=
  .node hleft hright hpiece rfl

theorem sized_createPieceNode (hpiece : piece.Sound) (seed : UInt32) :
    Sized (createPieceNode piece seed).1 :=
  .node .empty .empty hpiece (by simp [treeElements])

@[simp] theorem flatten_updatePieceNode (left right : PieceTree) (piece : Piece)
    (priority : UInt32) : flattenPieceTree (updatePieceNode left piece right priority)
      = flattenPieceTree left ++ piece :: flattenPieceTree right := rfl

@[simp] theorem flatten_createPieceNode (piece : Piece) (seed : UInt32) :
    flattenPieceTree (createPieceNode piece seed).1 = [piece] := rfl

@[simp] theorem entries_updatePieceNode (left right : PieceTree) (piece : Piece)
    (priority : UInt32) : (updatePieceNode left piece right priority).entries
      = left.entries ++ (piece.entries ++ right.entries) := by
  simp [PieceTree.entries]

@[simp] theorem entries_node (left right : PieceTree) (piece : Piece) (priority : UInt32)
    (elements : Nat) : (PieceTree.node left piece right priority elements).entries
      = left.entries ++ (piece.entries ++ right.entries) := by
  simp [PieceTree.entries, flattenPieceTree]

@[simp] theorem entries_empty : PieceTree.empty.entries = [] := rfl

variable {tree : PieceTree}

theorem Sized.treeElements_eq (h : Sized tree) : treeElements tree = tree.entries.length := by
  induction h with
  | empty => rfl
  | node _ _ _ helements ihleft ihright =>
    rw [treeElements, helements, ihleft, ihright, entries_node, List.length_append,
      List.length_append, Piece.length_entries, Nat.add_assoc]

theorem flatten_mergePieceTrees (left right : PieceTree) :
    flattenPieceTree (mergePieceTrees left right)
      = flattenPieceTree left ++ flattenPieceTree right := by
  induction left generalizing right with
  | empty => rfl
  | node ll lp lr lpriority ln _ ihlr =>
    induction right with
    | empty => exact (List.append_nil _).symm
    | node rl rp rr rpriority rn ihrl _ =>
      rw [mergePieceTrees_node]
      split
      · simp [flattenPieceTree, ihlr]
      · simp [flattenPieceTree, ihrl]

theorem sized_mergePieceTrees {left right : PieceTree} (hleft : Sized left) (hright : Sized right) :
    Sized (mergePieceTrees left right) := by
  induction hleft generalizing right with
  | empty => exact hright
  | node hll hlr hlp hln _ ihlr =>
    induction hright with
    | empty => exact .node hll hlr hlp hln
    | node hrl hrr hrp hrn ihrl _ =>
      rw [mergePieceTrees_node]
      split
      · exact sized_updatePieceNode hll (ihlr (.node hrl hrr hrp hrn)) hlp
      · exact sized_updatePieceNode ihrl hrr hrp

/-! ## Splitting -/

theorem sized_splitPieceTree (h : Sized tree) (index : Nat) (seed : UInt32) :
    Sized (splitPieceTree tree index seed).1.1 ∧ Sized (splitPieceTree tree index seed).1.2 := by
  induction h generalizing index seed with
  | empty => exact ⟨.empty, .empty⟩
  | @node left right piece priority elements hleft hright hpiece _ ihleft ihright =>
    simp only [splitPieceTree]
    split
    · obtain ⟨hfirst, hrest⟩ := ihleft index seed
      exact ⟨hfirst, sized_updatePieceNode hrest hright hpiece⟩
    split
    · obtain ⟨hfirst, hrest⟩ := ihright (index - (treeElements left + piece.length)) seed
      exact ⟨sized_updatePieceNode hleft hfirst hpiece, hrest⟩
    split
    · exact ⟨hleft, sized_updatePieceNode .empty hright hpiece⟩
    split
    · exact ⟨sized_updatePieceNode hleft .empty hpiece, hright⟩
    · constructor
      · refine sized_mergePieceTrees hleft (sized_createPieceNode ?_ _)
        refine hpiece.cut ?_
        omega
      · refine sized_mergePieceTrees (sized_createPieceNode ?_ _) hright
        refine hpiece.cut ?_
        omega

theorem entries_mergePieceTrees (left right : PieceTree) :
    (mergePieceTrees left right).entries = left.entries ++ right.entries := by
  rw [PieceTree.entries, flatten_mergePieceTrees, entriesOf_append]
  rfl

theorem entries_createPieceNode (piece : Piece) (seed : UInt32) :
    (createPieceNode piece seed).1.entries = piece.entries := by
  simp [PieceTree.entries]

/-- **A split** cuts the entries at the index. -/
theorem entries_splitPieceTree (h : Sized tree) (index : Nat) (seed : UInt32) :
    (splitPieceTree tree index seed).1.1.entries = tree.entries.take index
      ∧ (splitPieceTree tree index seed).1.2.entries = tree.entries.drop index := by
  induction h generalizing index seed with
  | empty => simp [splitPieceTree]
  | @node left right piece priority elements hleft hright hpiece _ ihleft ihright =>
    have hlength := hleft.treeElements_eq
    simp only [splitPieceTree, entries_node]
    split
    · next hlt =>
      obtain ⟨hfirst, hrest⟩ := ihleft index seed
      rw [hlength] at hlt
      rw [List.take_append_of_le_length (by omega), List.drop_append_of_le_length (by omega)]
      exact ⟨hfirst, by rw [entries_updatePieceNode, hrest]⟩
    split
    · next _ hgt =>
      obtain ⟨hfirst, hrest⟩ := ihright (index - (treeElements left + piece.length)) seed
      have hpast : index = left.entries.length
          + (piece.entries.length + (index - (treeElements left + piece.length))) := by
        rw [Piece.length_entries]
        omega
      constructor
      · rw [entries_updatePieceNode, hfirst, hpast, List.take_length_add_append,
          List.take_length_add_append, ← hpast]
      · rw [hrest, hpast, List.drop_length_add_append, List.drop_length_add_append, ← hpast]
    split
    · next heq =>
      rw [heq, hlength, List.take_left, List.drop_left]
      exact ⟨rfl, by simp⟩
    split
    · next heq =>
      have hpast : index = left.entries.length + piece.entries.length := by
        rw [Piece.length_entries]
        omega
      constructor
      · rw [entries_updatePieceNode, hpast, List.take_length_add_append, List.take_left]
        simp
      · rw [hpast, List.drop_length_add_append, List.drop_left]
    · -- the cut goes through the piece
      have hpast : index = left.entries.length + (index - treeElements left) := by omega
      have hinside : index - treeElements left ≤ piece.length := by omega
      have hcut := piece.entries_cut hinside
      have hlengthCut : ({ piece with length := index - treeElements left } : Piece).entries.length
          = index - treeElements left := Piece.length_entries _
      constructor
      · rw [entries_mergePieceTrees, entries_createPieceNode, hpast, List.take_length_add_append,
          ← hpast, ← hcut, List.append_assoc, List.take_append_of_le_length (by omega),
          List.take_of_length_le (by omega)]
      · rw [entries_mergePieceTrees, entries_createPieceNode, hpast, List.drop_length_add_append,
          ← hpast, ← hcut, List.append_assoc, List.drop_append_of_le_length (by omega),
          List.drop_of_length_le (by omega), List.nil_append]

theorem Sized.sound (h : Sized tree) : ∀ piece ∈ flattenPieceTree tree, piece.Sound := by
  induction h with
  | empty => simp [flattenPieceTree]
  | node _ _ hpiece _ ihleft ihright =>
    intro piece hmem
    simp only [flattenPieceTree, List.mem_append, List.mem_cons] at hmem
    obtain hmem | rfl | hmem := hmem
    · exact ihleft piece hmem
    · exact hpiece
    · exact ihright piece hmem

theorem entriesOf_pos {pieces : List Piece} (h : ∀ piece ∈ pieces, piece.Sound)
    (hne : pieces ≠ []) : 0 < (entriesOf pieces).length := by
  cases pieces with
  | nil => exact absurd rfl hne
  | cons piece rest =>
    have hpos := (h piece List.mem_cons_self).length_pos
    rw [entriesOf_cons, List.length_append, Piece.length_entries]
    omega

/-- **A split between two pieces** leaves both whole. -/
theorem flatten_splitPieceTree (h : Sized tree) {xs ys : List Piece}
    (hcut : flattenPieceTree tree = xs ++ ys) (seed : UInt32) :
    flattenPieceTree (splitPieceTree tree (entriesOf xs).length seed).1.1 = xs
      ∧ flattenPieceTree (splitPieceTree tree (entriesOf xs).length seed).1.2 = ys := by
  induction h generalizing xs ys seed with
  | empty =>
    obtain ⟨rfl, rfl⟩ := List.append_eq_nil_iff.1 hcut.symm
    exact ⟨rfl, rfl⟩
  | @node left right piece priority elements hleft hright hpiece _ ihleft ihright =>
    have hlength : treeElements left = (entriesOf (flattenPieceTree left)).length :=
      hleft.treeElements_eq
    have hpos := hpiece.length_pos
    rw [flattenPieceTree] at hcut
    simp only [splitPieceTree]
    obtain ⟨between, rfl, hrest⟩ | ⟨between, hxs, rfl⟩ := List.append_eq_append_iff.1 hcut
    · cases between with
      | nil =>
        obtain rfl : piece :: flattenPieceTree right = ys := hrest
        rw [List.append_nil, ← hlength, if_neg (by omega), if_neg (by omega), if_pos rfl]
        exact ⟨rfl, rfl⟩
      | cons head between =>
        rw [List.cons_append] at hrest
        obtain ⟨rfl, htail⟩ := List.cons.inj hrest
        have hindex : (entriesOf (flattenPieceTree left ++ piece :: between)).length
            = treeElements left + piece.length + (entriesOf between).length := by
          rw [entriesOf_append, entriesOf_cons, List.length_append, List.length_append,
            Piece.length_entries, hlength, Nat.add_assoc]
        rw [hindex, if_neg (by omega)]
        by_cases hnil : between = []
        · -- the cut is right after the root's own piece
          subst hnil
          obtain rfl : flattenPieceTree right = ys := htail
          simp only [entriesOf_nil, List.length_nil, Nat.add_zero]
          rw [if_neg (by omega), if_neg (by omega), if_pos trivial]
          exact ⟨rfl, rfl⟩
        · have hsound : ∀ p ∈ between, p.Sound := by
            intro p hp
            exact hright.sound p (htail ▸ List.mem_append_left _ hp)
          have := entriesOf_pos hsound hnil
          obtain ⟨hfirst, hsecond⟩ := ihright htail seed
          rw [if_pos (by omega), Nat.add_sub_cancel_left]
          exact ⟨by rw [flatten_updatePieceNode, hfirst], hsecond⟩
    · by_cases hnil : between = []
      · subst hnil
        rw [List.append_nil] at hxs
        rw [← hxs, ← hlength, if_neg (by omega), if_neg (by omega), if_pos rfl]
        exact ⟨rfl, rfl⟩
      · have hsound : ∀ p ∈ between, p.Sound := by
          intro p hp
          exact hleft.sound p (hxs ▸ List.mem_append_right _ hp)
        have hbetween := entriesOf_pos hsound hnil
        rw [hxs, entriesOf_append, List.length_append] at hlength
        obtain ⟨hfirst, hsecond⟩ := ihleft hxs seed
        rw [if_pos (by omega)]
        exact ⟨hfirst, by rw [flatten_updatePieceNode, hsecond]⟩

/-! ## Joining -/

theorem leftmostPiece_eq (tree : PieceTree) :
    leftmostPiece tree = (flattenPieceTree tree).head? := by
  fun_induction leftmostPiece tree with
  | case1 => rfl
  | case2 piece right _ _ => rfl
  | case3 left piece right _ _ hne ih =>
    rw [ih, flattenPieceTree]
    cases left with
    | empty => exact absurd rfl (hne)
    | node ll lp lr _ _ => simp [flattenPieceTree]

theorem rightmostPiece_eq (tree : PieceTree) :
    rightmostPiece tree = (flattenPieceTree tree).getLast? := by
  fun_induction rightmostPiece tree with
  | case1 => rfl
  | case2 left piece _ _ => simp [flattenPieceTree]
  | case3 left piece right _ _ hne ih =>
    rw [ih, flattenPieceTree, List.getLast?_append, List.getLast?_cons]
    have hright : flattenPieceTree right ≠ [] := by
      cases right with
      | empty => exact absurd rfl (hne)
      | node rl rp rr _ _ => simp [flattenPieceTree]
    rw [List.getLast?_eq_some_getLast hright]
    rfl

/-- The pieces of a tree in their order, and how many there are. -/
def PieceTree.count (tree : PieceTree) : Nat := (flattenPieceTree tree).length

theorem sound_combinedPiece {left : Piece} (hleft : left.Sound)
    (h : mergeablePieces left right = true) : (combinedPiece left right).Sound := by
  have hpos := hleft.length_pos
  refine ⟨?_, ?_⟩
  · show 0 < left.length + right.length
    omega
  rw [mergeablePieces, Bool.and_eq_true] at h
  simp only [combinedPiece]
  by_cases hone : left.length = 1
  · rw [if_pos hone]
    by_cases hsingle : right.length = 1
    · rw [if_pos ⟨hone, hsingle⟩, decide_eq_true_eq, decide_eq_true_eq] at h
      have hnear := h.2
      show right.start - left.start = 1 ∨ right.start - left.start = -1
      omega
    · rw [if_neg (by tauto), Bool.and_eq_true, decide_eq_true_eq, decide_eq_true_eq,
        decide_eq_true_eq] at h
      obtain ⟨-, -, hnext⟩ := h
      have hunit := hleft.step_unit
      rw [hone, Int.natCast_one, mul_one] at hnext
      show right.start - left.start = 1 ∨ right.start - left.start = -1
      omega
  · rw [if_neg hone]
    exact hleft.step_unit

/-- **A join ends**, and its entries are those of both trees. -/
theorem joinNormalized_spec {fuel : Nat} {left right : PieceTree} (hleft : Sized left)
    (hright : Sized right) (hfuel : left.count + right.count < fuel) (seed : UInt32) :
    ∃ joined, joinNormalized fuel left right seed = some joined ∧ Sized joined.1
      ∧ joined.1.entries = left.entries ++ right.entries
      ∧ joined.1.count ≤ left.count + right.count := by
  induction fuel generalizing left right seed with
  | zero => omega
  | succ fuel ih =>
    rw [joinNormalized, rightmostPiece_eq, leftmostPiece_eq]
    cases hlast : (flattenPieceTree left).getLast? with
    | none =>
      have hnil := List.getLast?_eq_none_iff.1 hlast
      refine ⟨(right, seed), rfl, hright, ?_, Nat.le_add_left _ _⟩
      rw [PieceTree.entries, PieceTree.entries, hnil]
      rfl
    | some leftPiece =>
    cases hhead : (flattenPieceTree right).head? with
    | none =>
      have hnil := List.head?_eq_none_iff.1 hhead
      refine ⟨(left, seed), rfl, hleft, ?_, Nat.le_add_right _ _⟩
      rw [PieceTree.entries, PieceTree.entries, hnil, entriesOf_nil, List.append_nil]
    | some rightPiece =>
    obtain ⟨init, hinit⟩ := List.getLast?_eq_some_iff.1 hlast
    obtain ⟨tail, htail⟩ := List.head?_eq_some_iff.1 hhead
    simp only
    by_cases hmerge : mergeablePieces leftPiece rightPiece = true
    · rw [if_pos hmerge]
      have hlp : leftPiece.Sound := hleft.sound leftPiece (by simp [hinit])
      have hrp : rightPiece.Sound := hright.sound rightPiece (by simp [htail])
      -- what remains on both sides of the combined piece
      have hcut : treeElements left - leftPiece.length = (entriesOf init).length := by
        rw [hleft.treeElements_eq, PieceTree.entries, hinit]
        simp
      have hcut' : rightPiece.length = (entriesOf [rightPiece]).length := by simp
      rw [hcut]
      obtain ⟨hrest, -⟩ := flatten_splitPieceTree hleft hinit seed
      have hsized := (sized_splitPieceTree hleft (entriesOf init).length seed).1
      generalize splitPieceTree left (entriesOf init).length seed = first at hrest hsized
      obtain ⟨⟨leftRest, leftDone⟩, seed⟩ := first
      simp only at hrest hsized ⊢
      have hrest' := (@flatten_splitPieceTree right hright [rightPiece] tail htail seed).2
      have hsized' := (sized_splitPieceTree hright rightPiece.length seed).2
      rw [← hcut'] at hrest'
      generalize splitPieceTree right rightPiece.length seed = second at hrest' hsized'
      obtain ⟨⟨rightDone, rightRest⟩, seed⟩ := second
      simp only at hrest' hsized' ⊢
      have hcount : leftRest.count + 1 = left.count := by
        rw [PieceTree.count, PieceTree.count, hrest, hinit, List.length_append]
        rfl
      have hcount' : rightRest.count + 1 = right.count := by
        rw [PieceTree.count, PieceTree.count, hrest', htail]
        rfl
      have hcombined := sound_combinedPiece hlp hmerge
      -- the combined piece is joined to the left, and the result to the right
      have hmiddle : (createPieceNode (combinedPiece leftPiece rightPiece) seed).1.count = 1 := rfl
      obtain ⟨joined, hjoined, hjsized, hjentries, hjcount⟩ := ih hsized
        (sized_createPieceNode hcombined seed) (by rw [hmiddle]; omega)
        (createPieceNode (combinedPiece leftPiece rightPiece) seed).2
      rw [hmiddle] at hjcount
      obtain ⟨result, hresult, hrsized, hrentries, hrcount⟩ :=
        ih hjsized hsized' (by omega) joined.2
      refine ⟨result, ?_, hrsized, ?_, by omega⟩
      · rw [hjoined]
        exact hresult
      · rw [hrentries, hjentries, entries_createPieceNode, entries_combined hmerge,
          PieceTree.entries, PieceTree.entries, PieceTree.entries, PieceTree.entries, hrest, hrest',
          hinit, htail]
        simp
    · rw [if_neg hmerge]
      refine ⟨(mergePieceTrees left right, seed), rfl, sized_mergePieceTrees hleft hright,
        entries_mergePieceTrees left right, ?_⟩
      rw [PieceTree.count, flatten_mergePieceTrees, List.length_append]
      rfl

/-! ## Lists of pieces, places and the rightmost piece -/

theorem sound_mergePiecesFrom {left : Piece} {pieces : List Piece} (hleft : left.Sound)
    (h : ∀ piece ∈ pieces, piece.Sound) : ∀ piece ∈ mergePiecesFrom left pieces, piece.Sound := by
  induction pieces generalizing left with
  | nil =>
    intro piece hmem
    rw [mergePiecesFrom, List.mem_singleton] at hmem
    exact hmem ▸ hleft
  | cons right rest ih =>
    have hrest : ∀ piece ∈ rest, piece.Sound := fun piece hp => h piece (List.mem_cons_of_mem _ hp)
    have hpos := hleft.length_pos
    rw [mergePiecesFrom]
    split
    · next hsingle =>
      obtain ⟨-, -, -, hnear⟩ := hsingle
      refine ih ⟨?_, ?_⟩ hrest
      · show 0 < 2
        omega
      · show right.start - left.start = 1 ∨ right.start - left.start = -1
        omega
    split
    · refine ih (hleft.cut ?_) hrest
      omega
    · intro piece hmem
      obtain rfl | hmem := List.mem_cons.1 hmem
      · exact hleft
      · exact ih (h right List.mem_cons_self) hrest piece hmem

theorem sound_mergePieces {pieces : List Piece} (h : ∀ piece ∈ pieces, piece.Sound) :
    ∀ piece ∈ mergePieces pieces, piece.Sound := by
  cases pieces with
  | nil => exact h
  | cons piece rest =>
    exact sound_mergePiecesFrom (h piece List.mem_cons_self)
      fun piece hp => h piece (List.mem_cons_of_mem _ hp)

theorem foldl_appendPiece {pieces : List Piece} (h : ∀ piece ∈ pieces, piece.Sound)
    {tree : PieceTree × UInt32} (htree : Sized tree.1) :
    Sized (pieces.foldl appendPiece tree).1
      ∧ flattenPieceTree (pieces.foldl appendPiece tree).1 = flattenPieceTree tree.1 ++ pieces := by
  induction pieces generalizing tree with
  | nil => exact ⟨htree, (List.append_nil _).symm⟩
  | cons piece rest ih =>
    have hnode := sized_createPieceNode (h piece List.mem_cons_self) tree.2
    have hstep : flattenPieceTree (appendPiece tree piece).1 = flattenPieceTree tree.1 ++ [piece] :=
      flatten_mergePieceTrees _ _
    have hrest : ∀ p ∈ rest, p.Sound := fun p hp => h p (List.mem_cons_of_mem _ hp)
    obtain ⟨hsized, hflatten⟩ := @ih hrest (appendPiece tree piece)
      (sized_mergePieceTrees htree hnode)
    refine ⟨hsized, ?_⟩
    rw [List.foldl_cons, hflatten, hstep, List.append_assoc]
    rfl

/-- **A tree of pieces** has their entries. -/
theorem treeFromPieces_spec {pieces : List Piece} (h : ∀ piece ∈ pieces, piece.Sound)
    (seed : UInt32) : Sized (treeFromPieces pieces seed).1
      ∧ (treeFromPieces pieces seed).1.entries = entriesOf pieces := by
  obtain ⟨hsized, hflatten⟩ :=
    @foldl_appendPiece (mergePieces pieces) (sound_mergePieces h) (.empty, seed) .empty
  refine ⟨hsized, ?_⟩
  rw [treeFromPieces, PieceTree.entries, hflatten, flattenPieceTree, List.nil_append,
    entriesOf_mergePieces]

/-- **An index is located** at its entry. -/
theorem locatePiece_eq (h : Sized tree) (index : Nat) :
    (locatePiece tree index).map (fun located => located.1.entry located.2)
      = tree.entries[index]? := by
  induction h generalizing index with
  | empty => simp [locatePiece]
  | @node left right piece priority elements hleft hright hpiece _ ihleft ihright =>
    have hlength := hleft.treeElements_eq
    simp only [locatePiece, entries_node]
    split
    · next hlt =>
      rw [ihleft, List.getElem?_append_left (by omega)]
    split
    · next hge =>
      rw [ihright, List.getElem?_append_right (by omega), List.getElem?_append_right]
      · rw [Piece.length_entries]
        congr 1
        omega
      · rw [Piece.length_entries]
        omega
    · rw [List.getElem?_append_right (by omega), List.getElem?_append_left, Option.map_some,
        Piece.entries, List.getElem?_map, List.getElem?_range, ← hlength]
      · rfl
      · omega
      · rw [Piece.length_entries]
        omega

def Piece.extension (piece : Piece) (amount : Nat) : Piece :=
  { piece with start := piece.start + piece.step * piece.length, length := amount }

theorem extendRightmostPiece_spec (h : Sized tree) {last : Piece}
    (hlast : rightmostPiece tree = some last) (amount : Nat) :
    Sized (extendRightmostPiece tree amount)
      ∧ (extendRightmostPiece tree amount).entries
        = tree.entries ++ (last.extension amount).entries := by
  induction h with
  | empty => cases hlast
  | @node left right piece priority elements hleft hright hpiece _ ihleft ihright =>
    cases right with
    | empty =>
      obtain rfl : piece = last := Option.some.inj hlast
      have hpos := hpiece.length_pos
      constructor
      · refine sized_updatePieceNode hleft .empty (hpiece.cut ?_)
        omega
      · have hextended : ({ piece with length := piece.length + amount } : Piece).entries
            = piece.entries ++ (piece.extension amount).entries :=
          entries_continued rfl rfl rfl rfl rfl (.inl rfl) (.inl rfl)
        rw [extendRightmostPiece, entries_updatePieceNode, entries_node, hextended]
        simp
    | node rl rp rr rpriority rn =>
      obtain ⟨hsized, hentries⟩ := ihright hlast
      constructor
      · exact sized_updatePieceNode hleft hsized hpiece
      · rw [extendRightmostPiece, entries_updatePieceNode, entries_node, hentries]
        · simp
        · exact nofun

end ThreeXhaust.Delta.Pieces
