import ThreeXhaust.Delta.ArrayPlan
import Mathlib.Data.List.Induction

/-!
# The draft of an array

`tracker.ts`: `ArrayOverlay` holds the base array of a draft, the tree of its pieces, the lists that
were inserted and the values that were written over single elements. The edits change the tree; the
elements are read off it.
-/

namespace ThreeXhaust.Delta.Pieces

/-! ## The source -/

structure Overlay (α : Type) where
  base : List α
  root : PieceTree
  sources : List (List α)
  baseOverrides : Int → Option α
  insertOverrides : Nat → Int → Option α
  seed : UInt32
  pieces : Option (List Piece)
  plan : Option ArrayPlan

section
variable {α : Type}

def itemAt (xs : List α) (index : Int) : Option α := if index < 0 then none else xs[index.toNat]?

namespace Overlay

/-- `arrayOverlay` for an array that has no draft yet. -/
def fresh (base : List α) : Overlay α :=
  let (root, seed) :=
    if base.length > 0 then
      createPieceNode { origin := .base, start := 0, length := base.length, step := 1 } 0x9e3779b9
    else (.empty, 0x9e3779b9)
  { base, root, seed
    sources := []
    baseOverrides := fun _ => none
    insertOverrides := fun _ _ => none
    pieces := none
    plan := none }

/-- The `refs` of an inserted list. -/
def refsOf (o : Overlay α) (source : Nat) : List α := o.sources.getD source []

def arrayLength (o : Overlay α) : Nat := treeElements o.root

def entryValueAt (o : Overlay α) : Entry → Option α
  | (.base, index) => (o.baseOverrides index).or (itemAt o.base index)
  | (.insert source, index) => (o.insertOverrides source index).or (itemAt (o.refsOf source) index)

def getArrayIndex (o : Overlay α) (index : Nat) : Option α := do
  let (piece, offset) ← locatePiece o.root index
  o.entryValueAt (piece.entry offset)

def elements (o : Overlay α) : List (Option α) := (List.range o.arrayLength).map o.getArrayIndex

def piecesOf (o : Overlay α) : List Piece := o.pieces.getD (flattenPieceTree o.root)

def withRoot (o : Overlay α) (tree : PieceTree × UInt32) : Overlay α :=
  { o with root := tree.1, seed := tree.2, pieces := none, plan := none }

def joinPieceTrees (left right : PieceTree) (seed : UInt32) : Option (PieceTree × UInt32) :=
  joinNormalized (left.count + right.count + 1) left right seed

/-- Where the insertion of a single piece continues the list that the array ends with: the piece,
its list, and the list that takes its items. -/
def extendedTail (o : Overlay α) (index remove : Nat) (inserted : List Piece) :
    Option (Piece × Nat × Nat) :=
  match inserted, rightmostPiece o.root with
  | [addition], some tail =>
    match addition.origin, tail.origin with
    | .insert source, .insert target =>
      if remove = 0 ∧ index = o.arrayLength ∧ tail.step = 1
          ∧ tail.start + tail.length = (o.refsOf target).length then some (addition, source, target)
      else none
    | _, _ => none
  | _, _ => none

/-- The items from `start` on are pushed one by one; `none` where there is none to push. -/
def pushRefs (sources : List (List α)) (source target : Nat) (start : Int) (length : Nat) :
    Option (List (List α)) :=
  (List.range length).foldlM (fun sources offset => do
    let item ← itemAt (sources.getD source []) (start + (offset : Nat))
    some (sources.modify target (· ++ [item]))) sources

def replacePieceRange (o : Overlay α) (index remove : Nat) (inserted : List Piece) :
    Option (Overlay α) :=
  if remove = 0 ∧ inserted = [] then some o
  else
    match o.extendedTail index remove inserted with
    | some (addition, source, target) => do
      let sources ← pushRefs o.sources source target addition.start addition.length
      some ({ o with sources }.withRoot (extendRightmostPiece o.root addition.length, o.seed))
    | none => do
      let ((left, rest), seed) := splitPieceTree o.root index o.seed
      let ((_, right), seed) := splitPieceTree rest remove seed
      let (middle, seed) := treeFromPieces inserted seed
      let (joined, seed) ← joinPieceTrees left middle seed
      let tree ← joinPieceTrees joined right seed
      some (o.withRoot tree)

def reversedPiece (piece : Piece) : Piece :=
  { piece with
    start := piece.start + piece.step * (piece.length - 1)
    step := if piece.step = 1 then -1 else 1 }

def reverse (o : Overlay α) : Overlay α :=
  if o.arrayLength < 2 then o
  else o.withRoot (treeFromPieces (o.piecesOf.reverse.map reversedPiece) o.seed)

def singletonPiece (entry : Entry) : Piece :=
  { origin := entry.1, start := entry.2, length := 1, step := 1 }

/-- The loop of `piecesFromSortOrder`, with its last piece. -/
@[grind =] def sortPiecesFrom (previous : Piece) : List Entry → List Piece
  | [] => [previous]
  | token :: order =>
    if token.1 = previous.origin ∧ previous.length = 1
        ∧ (token.2 - previous.start = 1 ∨ token.2 - previous.start = -1) then
      sortPiecesFrom { previous with step := token.2 - previous.start, length := 2 } order
    else if token.1 = previous.origin ∧ previous.length ≠ 1
        ∧ previous.start + previous.step * previous.length = token.2 then
      sortPiecesFrom { previous with length := previous.length + 1 } order
    else previous :: sortPiecesFrom (singletonPiece token) order

def piecesFromSortOrder : List Entry → List Piece
  | [] => []
  | token :: order => sortPiecesFrom (singletonPiece token) order

def sameSortTokenAt (o : Overlay α) (index : Nat) (token : Entry) : Bool :=
  (locatePiece o.root index).any fun (piece, offset) => piece.entry offset = token

/-- What `sort` does once the order is known. -/
def sortTo (o : Overlay α) (order : List Entry) : Option (Overlay α) :=
  let samePrefix := decide (o.arrayLength ≥ order.length)
    && order.zipIdx.all fun (token, index) => o.sameSortTokenAt index token
  if samePrefix then some o
  else o.replacePieceRange 0 (min order.length o.arrayLength) (piecesFromSortOrder order)

def buildArrayPlan (o : Overlay α) : ArrayPlan :=
  match o.plan with
  | some plan => plan
  | none =>
    (orderedArrayPlan o.base.length o.piecesOf).getD (elementArrayPlan o.base.length o.piecesOf)

end Overlay

/-- An edit of a drafted array. `allocate` is a new list `{ refs }`, for pieces to be runs of. -/
inductive Edit (α : Type) where
  | allocate (items : List α)
  | replace (index remove : Nat) (inserted : List Piece)
  | reverse
  | sort (order : List Entry)
  | build

namespace Overlay

def edit (o : Overlay α) : Edit α → Option (Overlay α)
  | .allocate items => some { o with sources := o.sources ++ [items] }
  | .replace index remove inserted => o.replacePieceRange index remove inserted
  | .reverse => some o.reverse
  | .sort order => o.sortTo order
  | .build => some { o with pieces := some o.piecesOf, plan := some o.buildArrayPlan }

@[grind =] def run (o : Overlay α) : List (Edit α) → Option (Overlay α)
  | [] => some o
  | edit :: edits => do (← o.edit edit).run edits

/-! ## The plain list -/

/-- The edit on the plain list of elements: the items of a piece are those of its list. -/
def plainEdit (o : Overlay α) (xs : List (Option α)) : Edit α → List (Option α)
  | .allocate _ => xs
  | .replace index remove inserted =>
    xs.take index ++ (entriesOf inserted).map o.entryValueAt ++ xs.drop (index + remove)
  | .reverse => xs.reverse
  | .sort order => order.map o.entryValueAt ++ xs.drop order.length
  | .build => xs

@[grind =] def plainRun (o : Overlay α) (xs : List (Option α)) : List (Edit α) → List (Option α)
  | [] => xs
  | edit :: edits =>
    match o.edit edit with
    | none => xs
    | some o' => o'.plainRun (o.plainEdit xs edit) edits

def Valid (o : Overlay α) : Entry → Prop
  | (.base, index) => 0 ≤ index ∧ index < o.base.length
  | (.insert source, index) => 0 ≤ index ∧ index < (o.refsOf source).length

/-- Nonempty pieces of items that exist. A single piece that continues the list at the end of the
array is a forward one, of items that were not written over. -/
def Fits (o : Overlay α) : Edit α → Prop
  | .replace index remove inserted =>
    (∀ piece ∈ inserted, piece.Sound ∧ ∀ entry ∈ piece.entries, o.Valid entry)
      ∧ ∀ addition source target,
          o.extendedTail index remove inserted = some (addition, source, target) →
            (addition.step = 1 ∨ addition.length = 1)
              ∧ ∀ entry ∈ addition.entries, o.insertOverrides source entry.2 = none
  | .sort order => ∀ token ∈ order, o.Valid token
  | _ => True

@[grind =] def FitsAll (o : Overlay α) : List (Edit α) → Prop
  | [] => True
  | edit :: edits => o.Fits edit ∧ ∀ o', o.edit edit = some o' → o'.FitsAll edits

/-- The tree is well formed, its pieces are of items that exist, as are the items that were written
over, and the caches are those of the tree. -/
structure WF (o : Overlay α) : Prop where
  sized : Sized o.root
  valid : ∀ entry ∈ o.root.entries, o.Valid entry
  overridden : ∀ source index, (o.insertOverrides source index).isSome →
    o.Valid (.insert source, index)
  piecesOf_eq : o.piecesOf = flattenPieceTree o.root
  plan_eq : ∀ plan, o.plan = some plan →
    plan = (orderedArrayPlan o.base.length (flattenPieceTree o.root)).getD
      (elementArrayPlan o.base.length (flattenPieceTree o.root))

/-! ## Reading -/

variable {o : Overlay α}

theorem elements_eq (h : Sized o.root) : o.elements = o.root.entries.map o.entryValueAt := by
  have hlength : o.arrayLength = o.root.entries.length := h.treeElements_eq
  apply List.ext_getElem?
  intro index
  rw [elements, List.getElem?_map, List.getElem?_map]
  by_cases hindex : index < o.arrayLength
  · have hlocate := locatePiece_eq h index
    rw [hlength] at hindex
    rw [List.getElem?_eq_getElem hindex] at hlocate
    obtain ⟨located, hlocated, hentry⟩ := Option.map_eq_some_iff.1 hlocate
    rw [List.getElem?_range (by omega), Option.map_some, getArrayIndex, hlocated,
      List.getElem?_eq_getElem hindex, Option.map_some, ← hentry]
    rfl
  · rw [List.getElem?_eq_none (by rw [List.length_range]; omega),
      List.getElem?_eq_none (by omega)]
    rfl

theorem itemAt_isSome {xs : List α} {index : Int} (hnonneg : 0 ≤ index)
    (hlt : index < xs.length) : (itemAt xs index).isSome := by
  rw [itemAt, if_neg (by omega), List.getElem?_eq_getElem (by omega), Option.isSome_some]

theorem Valid.isSome {entry : Entry} (h : o.Valid entry) : (o.entryValueAt entry).isSome := by
  obtain ⟨origin, index⟩ := entry
  cases origin with
  | base =>
    rw [entryValueAt, Option.isSome_or, itemAt_isSome h.1 h.2, Bool.or_true]
  | insert source =>
    rw [entryValueAt, Option.isSome_or, itemAt_isSome h.1 h.2, Bool.or_true]

theorem wf_withRoot {tree : PieceTree × UInt32} (hsized : Sized tree.1)
    (hvalid : ∀ entry ∈ tree.1.entries, o.Valid entry)
    (hoverridden : ∀ source index, (o.insertOverrides source index).isSome →
      o.Valid (.insert source, index)) : (o.withRoot tree).WF where
  sized := hsized
  valid := hvalid
  overridden := hoverridden
  piecesOf_eq := rfl
  plan_eq := nofun

theorem elements_withRoot {tree : PieceTree × UInt32} (hsized : Sized tree.1) :
    (o.withRoot tree).elements = tree.1.entries.map o.entryValueAt :=
  elements_eq (o := o.withRoot tree) hsized

theorem fresh_spec (base : List α) : Sized (fresh base).root
    ∧ (fresh base).root.entries = (List.range base.length).map fun i : Nat => (.base, (i : Int)) := by
  simp only [fresh]
  by_cases hpos : base.length > 0
  · rw [if_pos hpos]
    refine ⟨sized_createPieceNode ⟨hpos, .inl rfl⟩ _, ?_⟩
    refine (entries_createPieceNode _ _).trans ?_
    apply List.map_congr_left
    intro i _
    simp [Piece.entry]
  · have hzero : base.length = 0 := by omega
    rw [if_neg hpos, hzero]
    exact ⟨.empty, rfl⟩

theorem wf_fresh (base : List α) : (fresh base).WF where
  sized := (fresh_spec base).1
  valid := by
    rw [(fresh_spec base).2]
    intro entry hmem
    obtain ⟨i, hi, rfl⟩ := List.mem_map.1 hmem
    rw [List.mem_range] at hi
    refine ⟨by omega, ?_⟩
    show (i : Int) < base.length
    omega
  overridden := nofun
  piecesOf_eq := rfl
  plan_eq := nofun

/-- **A new draft** has the elements of its base. -/
theorem elements_fresh (base : List α) : (fresh base).elements = base.map some := by
  obtain ⟨hsized, hentries⟩ := fresh_spec base
  rw [elements_eq hsized, hentries, List.map_map]
  apply List.ext_getElem
  · simp
  · intro i hi hbase
    rw [List.length_map, List.length_range] at hi
    rw [List.getElem_map, List.getElem_range, List.getElem_map]
    show (none : Option α).or (itemAt base (i : Int)) = some base[i]
    rw [Option.none_or, itemAt, if_neg (by omega), Int.toNat_natCast, List.getElem?_eq_getElem hi]

/-! ## Splices -/

theorem joinPieceTrees_spec {left right : PieceTree} (hleft : Sized left) (hright : Sized right)
    (seed : UInt32) : ∃ joined, joinPieceTrees left right seed = some joined ∧ Sized joined.1
      ∧ joined.1.entries = left.entries ++ right.entries := by
  obtain ⟨joined, hjoined, hsized, hentries, -⟩ :=
    joinNormalized_spec hleft hright (Nat.lt_succ_self _) seed
  exact ⟨joined, hjoined, hsized, hentries⟩

theorem mem_entriesOf {pieces : List Piece} {entry : Entry} :
    entry ∈ entriesOf pieces ↔ ∃ piece ∈ pieces, entry ∈ piece.entries := List.mem_flatMap

/-- **A splice of pieces** is that of their entries. -/
theorem replace_spliced (hwf : o.WF) {index remove : Nat} {inserted : List Piece}
    (hsound : ∀ piece ∈ inserted, piece.Sound) (hne : ¬ (remove = 0 ∧ inserted = []))
    (htail : o.extendedTail index remove inserted = none) :
    ∃ tree, o.replacePieceRange index remove inserted = some (o.withRoot tree) ∧ Sized tree.1
      ∧ tree.1.entries = o.root.entries.take index ++ entriesOf inserted
        ++ o.root.entries.drop (index + remove) := by
  rw [replacePieceRange, if_neg hne, htail]
  have hsized := sized_splitPieceTree hwf.sized index o.seed
  have hentries := entries_splitPieceTree hwf.sized index o.seed
  simp only
  generalize splitPieceTree o.root index o.seed = first at hsized hentries ⊢
  obtain ⟨⟨left, rest⟩, seed⟩ := first
  obtain ⟨hleft, hrest⟩ := hsized
  obtain ⟨hleftEntries, hrestEntries⟩ := hentries
  simp only at hleft hrest hleftEntries hrestEntries ⊢
  have hsized := (sized_splitPieceTree hrest remove seed).2
  have hentries := (entries_splitPieceTree hrest remove seed).2
  generalize splitPieceTree rest remove seed = second at hsized hentries ⊢
  obtain ⟨⟨removed, right⟩, seed⟩ := second
  simp only at hsized hentries ⊢
  obtain ⟨hmiddle, hmiddleEntries⟩ := treeFromPieces_spec hsound seed
  generalize treeFromPieces inserted seed = middle at hmiddle hmiddleEntries ⊢
  obtain ⟨joined, hjoined, hjoinedSized, hjoinedEntries⟩ :=
    joinPieceTrees_spec hleft hmiddle middle.2
  obtain ⟨tree, htree, htreeSized, htreeEntries⟩ :=
    joinPieceTrees_spec hjoinedSized hsized joined.2
  refine ⟨tree, ?_, htreeSized, ?_⟩
  · rw [hjoined, Option.bind_eq_bind, Option.bind_some, htree]
    rfl
  · rw [htreeEntries, hjoinedEntries, hleftEntries, hmiddleEntries, hentries, hrestEntries,
      List.drop_drop]

theorem valid_spliced (hwf : o.WF) {index remove : Nat} {inserted : List Entry}
    (hvalid : ∀ entry ∈ inserted, o.Valid entry) :
    ∀ entry ∈ o.root.entries.take index ++ inserted ++ o.root.entries.drop (index + remove),
      o.Valid entry := by
  intro entry hmem
  rw [List.mem_append, List.mem_append] at hmem
  obtain (hmem | hmem) | hmem := hmem
  · exact hwf.valid entry (List.mem_of_mem_take hmem)
  · exact hvalid entry hmem
  · exact hwf.valid entry (List.mem_of_mem_drop hmem)

/-! ## Lists that grow at their end -/

/-- Nothing but the lists has changed, and these start as they were. -/
structure Grown (o o' : Overlay α) : Prop where
  base_eq : o'.base = o.base
  baseOverrides_eq : o'.baseOverrides = o.baseOverrides
  insertOverrides_eq : o'.insertOverrides = o.insertOverrides
  refs : ∀ source, ∃ more, o'.refsOf source = o.refsOf source ++ more

variable {o' : Overlay α}

theorem Grown.valid (h : Grown o o') {entry : Entry} (hvalid : o.Valid entry) : o'.Valid entry := by
  obtain ⟨origin, index⟩ := entry
  cases origin with
  | base =>
    rw [Valid, h.base_eq]
    exact hvalid
  | insert source =>
    obtain ⟨more, hmore⟩ := h.refs source
    obtain ⟨hnonneg, hlt⟩ := hvalid
    refine ⟨hnonneg, ?_⟩
    rw [hmore, List.length_append]
    omega

theorem Grown.value (h : Grown o o') {entry : Entry} (hvalid : o.Valid entry) :
    o'.entryValueAt entry = o.entryValueAt entry := by
  obtain ⟨origin, index⟩ := entry
  cases origin with
  | base => rw [entryValueAt, entryValueAt, h.base_eq, h.baseOverrides_eq]
  | insert source =>
    obtain ⟨more, hmore⟩ := h.refs source
    obtain ⟨hnonneg, hlt⟩ := hvalid
    rw [entryValueAt, entryValueAt, h.insertOverrides_eq, hmore, itemAt, itemAt,
      List.getElem?_append_left (by omega)]

theorem Grown.map_value (h : Grown o o') {entries : List Entry}
    (hvalid : ∀ entry ∈ entries, o.Valid entry) :
    entries.map o'.entryValueAt = entries.map o.entryValueAt :=
  List.map_congr_left fun entry hmem => h.value (hvalid entry hmem)

theorem Grown.overridden (h : Grown o o') (hwf : o.WF) (source : Nat) (index : Int)
    (hsome : (o'.insertOverrides source index).isSome) : o'.Valid (.insert source, index) := by
  rw [h.insertOverrides_eq] at hsome
  exact h.valid (hwf.overridden source index hsome)

theorem getD_modify_append (sources : List (List α)) (source target : Nat) (items : List α) :
    (sources.modify target (· ++ items)).getD source []
      = sources.getD source []
        ++ if source = target ∧ target < sources.length then items else [] := by
  rw [List.getD_eq_getElem?_getD, List.getD_eq_getElem?_getD, List.getElem?_modify]
  by_cases hlt : source < sources.length
  · rw [List.getElem?_eq_getElem hlt]
    by_cases hsame : target = source
    · rw [if_pos ⟨hsame.symm, hsame ▸ hlt⟩]
      simp [hsame]
    · rw [if_neg fun h => hsame h.1.symm]
      simp [hsame]
  · rw [List.getElem?_eq_none (by omega), if_neg (by omega)]
    rfl

theorem itemAt_append {xs : List α} (ys : List α) {index : Int} {item : α}
    (h : itemAt xs index = some item) : itemAt (xs ++ ys) index = some item := by
  rw [itemAt] at h ⊢
  split at h
  · cases h
  · next hnonneg =>
    obtain ⟨hlt, -⟩ := List.getElem?_eq_some_iff.1 h
    rw [if_neg hnonneg, List.getElem?_append_left hlt, h]

variable {source : Nat}

/-- **The pushed items**, where the pushed list may be the one they are read from. -/
theorem pushRefs_eq {sources : List (List α)} {target : Nat} {start : Int} (items : List α)
    (h : ∀ offset, offset < items.length →
      itemAt (sources.getD source []) (start + (offset : Nat)) = items[offset]?) :
    pushRefs sources source target start items.length
      = some (sources.modify target (· ++ items)) := by
  induction items using List.reverseRecOn with
  | nil =>
    simp only [pushRefs, List.append_nil]
    exact congrArg some (List.modify_id target sources).symm
  | append_singleton items item ih =>
    rw [List.length_append, List.length_singleton] at h
    have hitem := h items.length (by omega)
    rw [List.getElem?_append_right (Nat.le_refl _), Nat.sub_self] at hitem
    have hprior := ih fun offset hoffset => by
      rw [h offset (by omega), List.getElem?_append_left hoffset]
    rw [pushRefs] at hprior ⊢
    rw [List.length_append, List.length_singleton, List.range_succ, List.foldlM_append, hprior,
      Option.bind_eq_bind, Option.bind_some, List.foldlM_cons, getD_modify_append,
      itemAt_append _ hitem]
    simp [List.modify_modify_eq, Function.comp_def]

/-! ## The continued list at the end -/

theorem extendedTail_eq_some {index remove : Nat} {inserted : List Piece} {addition : Piece}
    {target : Nat} (h : o.extendedTail index remove inserted = some (addition, source, target)) :
    inserted = [addition] ∧ addition.origin = .insert source ∧ remove = 0 ∧ index = o.arrayLength
      ∧ ∃ tail, rightmostPiece o.root = some tail ∧ tail.origin = .insert target ∧ tail.step = 1
        ∧ tail.start + tail.length = (o.refsOf target).length := by
  unfold extendedTail at h
  split at h
  · next piece tail hlast =>
    split at h
    · next from_ to_ hfrom hto =>
      split at h
      · next hcond =>
        obtain ⟨hremove, hindex, hstep, hend⟩ := hcond
        cases h
        exact ⟨rfl, hfrom, hremove, hindex, tail, hlast, hto, hstep, hend⟩
      · cases h
    · cases h
  · cases h

variable {piece : Piece}

theorem forward_piece (hsound : piece.Sound) (horigin : piece.origin = .insert source)
    (hvalid : ∀ entry ∈ piece.entries, o.Valid entry) (hforward : piece.step = 1 ∨ piece.length = 1)
    (hplain : ∀ entry ∈ piece.entries, o.insertOverrides source entry.2 = none) :
    ∃ items : List α, items.length = piece.length
      ∧ (∀ offset, offset < items.length →
          itemAt (o.refsOf source) (piece.start + (offset : Nat)) = items[offset]?)
      ∧ piece.entries.map o.entryValueAt = items.map some := by
  have hentry : ∀ offset, offset < piece.length →
      piece.entry offset = (.insert source, piece.start + (offset : Nat)) := by
    intro offset hoffset
    rw [Piece.entry, horigin]
    obtain hstep | hone := hforward
    · rw [hstep, one_mul]
    · obtain rfl : offset = 0 := by omega
      simp
  have hmem : ∀ offset, offset < piece.length → piece.entry offset ∈ piece.entries :=
    fun offset hoffset => List.mem_map.2 ⟨offset, List.mem_range.2 hoffset, rfl⟩
  have hpos := hsound.length_pos
  have hfirst := hvalid _ (hmem 0 hpos)
  have hlast := hvalid _ (hmem (piece.length - 1) (by omega))
  rw [hentry _ (by omega)] at hfirst hlast
  obtain ⟨hstart, -⟩ := hfirst
  obtain ⟨-, hend⟩ := hlast
  have hlength : (((o.refsOf source).drop piece.start.toNat).take piece.length).length
      = piece.length := by
    rw [List.length_take, List.length_drop]
    omega
  have hitem : ∀ offset, offset < piece.length →
      itemAt (o.refsOf source) (piece.start + (offset : Nat))
        = (((o.refsOf source).drop piece.start.toNat).take piece.length)[offset]? := by
    intro offset hoffset
    have hindex : (piece.start + (offset : Nat)).toNat = piece.start.toNat + offset := by omega
    rw [itemAt, if_neg (by omega), List.getElem?_take_of_lt hoffset, List.getElem?_drop, hindex]
  refine ⟨_, hlength, fun offset hoffset => hitem offset (by omega), ?_⟩
  apply List.ext_getElem?
  intro offset
  rw [List.getElem?_map, List.getElem?_map, Piece.entries, List.getElem?_map]
  by_cases hoffset : offset < piece.length
  · have hoverride := hplain _ (hmem offset hoffset)
    rw [hentry offset hoffset] at hoverride
    rw [List.getElem?_range hoffset, Option.map_some, Option.map_some, hentry offset hoffset,
      entryValueAt, hoverride, Option.none_or, hitem offset hoffset,
      List.getElem?_eq_getElem (by omega), Option.map_some]
  · rw [List.getElem?_eq_none (by rw [List.length_range]; omega),
      List.getElem?_eq_none (by omega)]
    rfl

/-- **The continued list** reads as if the piece had been inserted. -/
theorem replace_extended (hwf : o.WF) {index remove : Nat} {inserted : List Piece}
    (hfits : o.Fits (.replace index remove inserted)) {addition : Piece} {target : Nat}
    (htail : o.extendedTail index remove inserted = some (addition, source, target)) :
    ∃ o', o.replacePieceRange index remove inserted = some o' ∧ o'.WF ∧ Grown o o'
      ∧ o'.elements = o.plainEdit o.elements (.replace index remove inserted) := by
  obtain ⟨hpieces, hcontinued⟩ := hfits
  obtain ⟨hforward, hplain⟩ := hcontinued _ _ _ htail
  obtain ⟨rfl, horigin, rfl, rfl, tail, hlast, htarget, hstep, hend⟩ := extendedTail_eq_some htail
  obtain ⟨hsound, hvalid⟩ := hpieces addition List.mem_cons_self
  obtain ⟨items, hlength, hitems, hvalues⟩ :=
    forward_piece hsound horigin hvalid hforward hplain
  obtain ⟨hsized, hentries⟩ := extendRightmostPiece_spec hwf.sized hlast addition.length
  -- the continued list exists, as it has the items of the last piece
  have htargetLt : target < o.sources.length := by
    have htailMem : tail ∈ flattenPieceTree o.root := by
      rw [rightmostPiece_eq] at hlast
      exact List.mem_of_getLast? hlast
    have hpos := (hwf.sized.sound tail htailMem).length_pos
    have hvalid := hwf.valid (tail.entry 0) (mem_entriesOf.2 ⟨tail, htailMem,
      List.mem_map.2 ⟨0, List.mem_range.2 hpos, rfl⟩⟩)
    rw [Piece.entry, htarget] at hvalid
    obtain ⟨hnonneg, hlt⟩ := hvalid
    by_contra hge
    rw [refsOf, List.getD_eq_getElem?_getD, List.getElem?_eq_none (by omega)] at hlt
    simp only [Option.getD_none, List.length_nil] at hlt
    omega
  generalize hsources : o.sources.modify target (· ++ items) = sources
  generalize hnew : ({ o with sources } : Overlay α) = grown
  have hrefs : ∀ s, grown.refsOf s = o.refsOf s ++ if s = target then items else [] := by
    intro s
    rw [← hnew, ← hsources]
    refine (getD_modify_append _ _ _ _).trans ?_
    simp [refsOf, htargetLt]
  have hgrown : Grown o grown := by
    rw [← hnew]
    refine ⟨rfl, rfl, rfl, fun s => ?_⟩
    rw [hnew]
    exact ⟨_, hrefs s⟩
  have hextension : ∀ offset, offset < items.length →
      (tail.extension addition.length).entry offset
        = (.insert target, ((o.refsOf target).length : Int) + (offset : Nat)) := by
    intro offset _
    rw [Piece.entry]
    simp only [Piece.extension, htarget, hstep, one_mul, hend]
  have hnewValid : ∀ entry ∈ (tail.extension addition.length).entries, grown.Valid entry := by
    intro entry hmem
    obtain ⟨offset, hoffset, rfl⟩ := List.mem_map.1 hmem
    have hlt : offset < items.length := by
      rw [hlength]
      exact List.mem_range.1 hoffset
    rw [hextension offset hlt]
    refine ⟨by omega, ?_⟩
    rw [hrefs, if_pos rfl, List.length_append]
    omega
  have hnewValues : (tail.extension addition.length).entries.map grown.entryValueAt
      = items.map some := by
    apply List.ext_getElem?
    intro offset
    rw [List.getElem?_map, List.getElem?_map, Piece.entries, List.getElem?_map]
    have hcount : (tail.extension addition.length).length = items.length := hlength.symm
    rw [hcount]
    by_cases hoffset : offset < items.length
    · -- nothing was written over an item that did not exist
      have hfree : grown.insertOverrides target (((o.refsOf target).length : Int) + (offset : Nat))
          = none := by
        rw [hgrown.insertOverrides_eq]
        by_contra hsome
        have hlt := (hwf.overridden target _ (Option.isSome_iff_ne_none.2 hsome)).2
        omega
      have hindex : (((o.refsOf target).length : Int) + (offset : Nat)).toNat
          = (o.refsOf target).length + offset := by omega
      rw [List.getElem?_range hoffset, Option.map_some, Option.map_some, hextension offset hoffset,
        entryValueAt, hfree, Option.none_or, itemAt, if_neg (by omega), hrefs, if_pos rfl, hindex,
        List.getElem?_append_right (by omega), Nat.add_sub_cancel_left,
        List.getElem?_eq_getElem hoffset, Option.map_some]
    · rw [List.getElem?_eq_none (by rw [List.length_range]; omega),
        List.getElem?_eq_none (by omega)]
      rfl
  refine ⟨grown.withRoot (extendRightmostPiece o.root addition.length, o.seed), ?_, ?_, ?_, ?_⟩
  · have hpushed : pushRefs o.sources source target addition.start addition.length
        = some (o.sources.modify target (· ++ items)) := by
      rw [← hlength]
      exact pushRefs_eq items hitems
    have hne : ¬ (0 = 0 ∧ [addition] = []) := fun h => List.cons_ne_nil _ _ h.2
    rw [replacePieceRange, if_neg hne, htail]
    simp only [hpushed, hsources]
    rw [← hnew]
    rfl
  · refine wf_withRoot hsized ?_ (hgrown.overridden hwf)
    rw [hentries]
    intro entry hmem
    obtain hmem | hmem := List.mem_append.1 hmem
    · exact hgrown.valid (hwf.valid entry hmem)
    · exact hnewValid entry hmem
  · exact ⟨hgrown.base_eq, hgrown.baseOverrides_eq, hgrown.insertOverrides_eq, hgrown.refs⟩
  · have harray : o.elements.length = o.arrayLength := by simp [elements]
    rw [elements_withRoot hsized, hentries, List.map_append, hgrown.map_value hwf.valid, hnewValues,
      ← elements_eq hwf.sized, plainEdit, ← harray, List.take_length, Nat.add_zero, List.drop_length,
      List.append_nil, entriesOf_cons, entriesOf_nil, List.append_nil, hvalues]

/-- **`replacePieceRange`** is the splice on the plain list. -/
theorem replace_spec (hwf : o.WF) {index remove : Nat} {inserted : List Piece}
    (hfits : o.Fits (.replace index remove inserted)) :
    ∃ o', o.replacePieceRange index remove inserted = some o' ∧ o'.WF ∧ Grown o o'
      ∧ o'.elements = o.plainEdit o.elements (.replace index remove inserted) := by
  by_cases hnothing : remove = 0 ∧ inserted = []
  · refine ⟨o, if_pos hnothing, hwf, ⟨rfl, rfl, rfl, fun s => ⟨[], (List.append_nil _).symm⟩⟩, ?_⟩
    obtain ⟨rfl, rfl⟩ := hnothing
    simp [plainEdit]
  cases htail : o.extendedTail index remove inserted with
  | some hit => exact replace_extended hwf hfits htail
  | none =>
    obtain ⟨hpieces, -⟩ := hfits
    obtain ⟨tree, hreplaced, hsized, hentries⟩ :=
      replace_spliced hwf (fun piece hp => (hpieces piece hp).1) hnothing htail
    have hvalid : ∀ entry ∈ entriesOf inserted, o.Valid entry := by
      intro entry hmem
      obtain ⟨piece, hp, hmem⟩ := mem_entriesOf.1 hmem
      exact (hpieces piece hp).2 entry hmem
    refine ⟨o.withRoot tree, hreplaced, wf_withRoot hsized ?_ hwf.overridden,
      ⟨rfl, rfl, rfl, fun s => ⟨[], (List.append_nil _).symm⟩⟩, ?_⟩
    · rw [hentries]
      exact valid_spliced hwf hvalid
    · rw [elements_withRoot hsized, hentries, elements_eq hwf.sized, plainEdit, List.map_append,
        List.map_append, List.map_take, List.map_drop]

/-! ## Reversal and sorting -/

theorem sound_reversedPiece (h : piece.Sound) : (reversedPiece piece).Sound := by
  refine ⟨h.length_pos, ?_⟩
  simp only [reversedPiece]
  split
  · exact .inr rfl
  · exact .inl rfl

theorem entries_reversedPiece (h : piece.Sound) :
    (reversedPiece piece).entries = piece.entries.reverse := by
  have hpos := h.length_pos
  apply List.ext_getElem
  · simp [reversedPiece]
  · intro i hi _
    have hlength : (reversedPiece piece).length = piece.length := rfl
    rw [Piece.length_entries, hlength] at hi
    rw [List.getElem_reverse]
    simp only [Piece.entries, List.getElem_map, List.getElem_range, List.length_map,
      List.length_range, Piece.entry, reversedPiece, Prod.mk.injEq, true_and]
    have hfrom : ((piece.length - 1 - i : Nat) : Int) = (piece.length : Int) - 1 - i := by omega
    rw [hfrom]
    obtain hstep | hstep := h.step_unit
    · rw [hstep, if_pos rfl]
      ring
    · rw [hstep, if_neg (by omega)]
      ring

theorem entriesOf_reversed {pieces : List Piece} (h : ∀ piece ∈ pieces, piece.Sound) :
    entriesOf (pieces.reverse.map reversedPiece) = (entriesOf pieces).reverse := by
  induction pieces with
  | nil => rfl
  | cons piece rest ih =>
    rw [List.reverse_cons, List.map_append, entriesOf_append,
      ih fun p hp => h p (List.mem_cons_of_mem _ hp), entriesOf_cons, List.reverse_append,
      ← entries_reversedPiece (h piece List.mem_cons_self), List.map_singleton, entriesOf_cons,
      entriesOf_nil, List.append_nil]

theorem reverse_spec (hwf : o.WF) : o.reverse.WF ∧ o.reverse.elements = o.elements.reverse := by
  rw [reverse]
  split
  · next hshort =>
    refine ⟨hwf, ?_⟩
    have hlength : o.elements.length < 2 := by
      rw [elements, List.length_map, List.length_range]
      exact hshort
    match o.elements, hlength with
    | [], _ => rfl
    | [_], _ => rfl
  · have hsound := hwf.sized.sound
    rw [hwf.piecesOf_eq]
    have hreversed : ∀ piece ∈ (flattenPieceTree o.root).reverse.map reversedPiece, piece.Sound := by
      intro piece hmem
      obtain ⟨source, hsource, rfl⟩ := List.mem_map.1 hmem
      exact sound_reversedPiece (hsound source (List.mem_reverse.1 hsource))
    obtain ⟨hsized, hentries⟩ := treeFromPieces_spec hreversed o.seed
    rw [entriesOf_reversed hsound] at hentries
    refine ⟨wf_withRoot hsized ?_ hwf.overridden, ?_⟩
    · rw [hentries]
      intro entry hmem
      exact hwf.valid entry (List.mem_reverse.1 hmem)
    · rw [elements_withRoot hsized, hentries, List.map_reverse, elements_eq hwf.sized]
      rfl

theorem sortPiecesFrom_spec (previous : Piece) (hsound : previous.Sound) (order : List Entry) :
    (∀ piece ∈ sortPiecesFrom previous order, piece.Sound)
      ∧ entriesOf (sortPiecesFrom previous order) = previous.entries ++ order := by
  induction order generalizing previous with
  | nil =>
    refine ⟨fun piece hmem => ?_, by simp [sortPiecesFrom]⟩
    rw [sortPiecesFrom, List.mem_singleton] at hmem
    exact hmem ▸ hsound
  | cons token order ih =>
    have hsingle : (singletonPiece token).entries = [token] := by
      simp [Piece.entries, Piece.entry, singletonPiece]
    have htoken : (singletonPiece token).Sound := ⟨Nat.one_pos, .inl rfl⟩
    have hpos := hsound.length_pos
    rw [sortPiecesFrom]
    split
    · next hnear =>
      obtain ⟨horigin, hone, hnear⟩ := hnear
      obtain ⟨hall, hentries⟩ := ih { previous with
        step := token.2 - previous.start
        length := 2 } ⟨Nat.two_pos, hnear⟩
      refine ⟨hall, ?_⟩
      rw [hentries, ← List.singleton_append, ← hsingle, ← List.append_assoc]
      congr 1
      refine entries_continued rfl horigin rfl ?_ ?_ (.inr (by omega)) (.inr (Nat.le_refl 1))
      · show 2 = previous.length + 1
        omega
      · show previous.start + (token.2 - previous.start) * (previous.length : Int) = token.2
        rw [hone, Int.natCast_one, mul_one]
        omega
    split
    · next hnext =>
      obtain ⟨horigin, -, hnext⟩ := hnext
      obtain ⟨hall, hentries⟩ := ih { previous with length := previous.length + 1 }
        ⟨Nat.succ_pos _, hsound.step_unit⟩
      refine ⟨hall, ?_⟩
      rw [hentries, ← List.singleton_append, ← hsingle, ← List.append_assoc]
      congr 1
      exact entries_continued rfl horigin rfl rfl hnext (.inl rfl) (.inr (Nat.le_refl 1))
    · obtain ⟨hall, hentries⟩ := ih _ htoken
      refine ⟨fun piece hmem => ?_, ?_⟩
      · obtain rfl | hmem := List.mem_cons.1 hmem
        · exact hsound
        · exact hall piece hmem
      · rw [entriesOf_cons, hentries, hsingle]
        rfl

/-- **The pieces of a sort order** have its entries. -/
theorem piecesFromSortOrder_spec (order : List Entry) :
    (∀ piece ∈ piecesFromSortOrder order, piece.Sound)
      ∧ entriesOf (piecesFromSortOrder order) = order := by
  cases order with
  | nil => exact ⟨fun piece hmem => absurd hmem List.not_mem_nil, rfl⟩
  | cons token order =>
    obtain ⟨hall, hentries⟩ :=
      sortPiecesFrom_spec (singletonPiece token) ⟨Nat.one_pos, .inl rfl⟩ order
    refine ⟨hall, ?_⟩
    rw [piecesFromSortOrder, hentries]
    simp [Piece.entries, Piece.entry, singletonPiece]

theorem take_of_samePrefix (hwf : o.WF) {order : List Entry}
    (h : order.zipIdx.all (fun (token, index) => o.sameSortTokenAt index token) = true) :
    o.root.entries.take order.length = order := by
  apply List.ext_getElem?
  intro index
  rw [List.getElem?_take]
  split
  · next hindex =>
    have hsame : o.sameSortTokenAt index order[index] = true :=
      List.all_eq_true.1 h (order[index], index)
        (List.mem_zipIdx_iff_getElem?.2 (List.getElem?_eq_getElem hindex))
    rw [sameSortTokenAt] at hsame
    rw [← locatePiece_eq hwf.sized]
    cases hlocated : locatePiece o.root index with
    | none =>
      rw [hlocated] at hsame
      cases hsame
    | some located =>
      rw [hlocated, Option.any_some, decide_eq_true_eq] at hsame
      rw [Option.map_some, hsame, List.getElem?_eq_getElem hindex]
  · next hindex => exact (List.getElem?_eq_none (by omega)).symm

theorem sort_spec (hwf : o.WF) {order : List Entry} (hvalid : ∀ token ∈ order, o.Valid token) :
    ∃ o', o.sortTo order = some o' ∧ o'.WF
      ∧ o'.elements = o.plainEdit o.elements (.sort order) := by
  have hlength : o.elements.length = o.arrayLength := by simp [elements]
  rw [sortTo]
  simp only
  split
  · next hsame =>
    obtain ⟨-, hsame⟩ := Bool.and_eq_true_iff.1 hsame
    refine ⟨o, rfl, hwf, ?_⟩
    have htake := take_of_samePrefix hwf hsame
    rw [plainEdit, elements_eq hwf.sized]
    conv_lhs => rw [← List.take_append_drop order.length o.root.entries, htake]
    rw [List.map_append, List.map_drop]
  · obtain ⟨hsound, hentries⟩ := piecesFromSortOrder_spec order
    have hfits : o.Fits (.replace 0 (min order.length o.arrayLength)
        (piecesFromSortOrder order)) := by
      refine ⟨fun piece hp => ⟨hsound piece hp, fun entry hmem => ?_⟩, ?_⟩
      · refine hvalid entry ?_
        rw [← hentries]
        exact mem_entriesOf.2 ⟨piece, hp, hmem⟩
      · -- an empty array has no list at its end
        intro addition source target htail
        obtain ⟨-, -, -, hempty, tail, hlast, -⟩ := extendedTail_eq_some htail
        rw [rightmostPiece_eq] at hlast
        have hpos := entriesOf_pos hwf.sized.sound (List.ne_nil_of_mem (List.mem_of_getLast? hlast))
        have : o.arrayLength = o.root.entries.length := hwf.sized.treeElements_eq
        rw [PieceTree.entries] at this
        omega
    obtain ⟨o', hreplaced, hwf', -, helements⟩ := replace_spec hwf hfits
    refine ⟨o', hreplaced, hwf', ?_⟩
    rw [helements, plainEdit, plainEdit, hentries, List.take_zero, List.nil_append, Nat.zero_add]
    congr 1
    by_cases hle : order.length ≤ o.arrayLength
    · rw [Nat.min_eq_left hle]
    · rw [List.drop_of_length_le (by omega), List.drop_of_length_le (by omega)]

/-! ## Runs -/

/-- **An edit** never fails, and is the same splice on the plain list. -/
theorem elements_edit (hwf : o.WF) {edit : Edit α} (hfits : o.Fits edit) :
    ∃ o', o.edit edit = some o' ∧ o'.WF ∧ o'.elements = o.plainEdit o.elements edit := by
  cases edit with
  | allocate items =>
    have hgrown : Grown o { o with sources := o.sources ++ [items] } := by
      refine ⟨rfl, rfl, rfl, fun source => ?_⟩
      by_cases hlt : source < o.sources.length
      · refine ⟨[], ?_⟩
        rw [refsOf, refsOf, List.getD_eq_getElem?_getD, List.getD_eq_getElem?_getD,
          List.getElem?_append_left hlt, List.append_nil]
      · refine ⟨(o.sources ++ [items]).getD source [], ?_⟩
        have hnone : o.refsOf source = [] := by
          rw [refsOf, List.getD_eq_getElem?_getD, List.getElem?_eq_none (by omega),
            Option.getD_none]
        rw [hnone]
        rfl
    refine ⟨_, rfl, ⟨hwf.sized, fun entry hmem => hgrown.valid (hwf.valid entry hmem),
      hgrown.overridden hwf, hwf.piecesOf_eq, hwf.plan_eq⟩, ?_⟩
    have hread := @elements_eq α { o with sources := o.sources ++ [items] } hwf.sized
    exact hread.trans ((hgrown.map_value hwf.valid).trans (elements_eq hwf.sized).symm)
  | replace index remove inserted =>
    obtain ⟨o', hreplaced, hwf', -, helements⟩ := replace_spec hwf hfits
    exact ⟨o', hreplaced, hwf', helements⟩
  | reverse =>
    obtain ⟨hwf', helements⟩ := reverse_spec hwf
    exact ⟨o.reverse, rfl, hwf', helements⟩
  | sort order => exact sort_spec hwf hfits
  | build =>
    refine ⟨_, rfl, ⟨hwf.sized, hwf.valid, hwf.overridden, hwf.piecesOf_eq, ?_⟩, rfl⟩
    intro plan hplan
    obtain rfl := Option.some.inj hplan
    rw [buildArrayPlan]
    split
    · next plan hcached => exact hwf.plan_eq plan hcached
    · rw [hwf.piecesOf_eq]

theorem elements_run (hwf : o.WF) {edits : List (Edit α)} (hfits : o.FitsAll edits) :
    ∃ o', o.run edits = some o' ∧ o'.WF ∧ o'.elements = o.plainRun o.elements edits := by
  induction edits generalizing o with
  | nil => exact ⟨o, rfl, hwf, rfl⟩
  | cons edit edits ih =>
    obtain ⟨hfit, hrest⟩ := hfits
    obtain ⟨next, hnext, hwf', helements⟩ := elements_edit hwf hfit
    obtain ⟨o', hrun, hwf'', hplain⟩ := ih hwf' (hrest next hnext)
    refine ⟨o', ?_, hwf'', ?_⟩
    · rw [run, hnext]
      exact hrun
    · rw [plainRun, hnext, hplain, helements]

theorem WF.target_valid (h : o.WF) :
    ∀ index ∈ targetBaseOf (flattenPieceTree o.root), 0 ≤ index ∧ index < o.base.length := by
  intro index hmem
  obtain ⟨piece, hpiece, hmem⟩ := List.mem_flatMap.1 hmem
  split at hmem
  · cases hmem
  · next hbase =>
    obtain ⟨offset, hoffset, rfl⟩ := List.mem_map.1 hmem
    have horigin : piece.origin = .base := by
      rw [isInsert, decide_eq_true_eq, not_not] at hbase
      exact hbase
    have hvalid := h.valid (piece.entry offset)
      (mem_entriesOf.2 ⟨piece, hpiece, List.mem_map.2 ⟨offset, hoffset, rfl⟩⟩)
    rw [Piece.entry, horigin] at hvalid
    exact hvalid

def applyPlan (o : Overlay α) (plan : ArrayPlan) : List (Option α) :=
  plan.apply (baseValues o.entryValueAt o.base.length) (itemValues o.entryValueAt o.piecesOf)

def remaining (o : Overlay α) (plan : ArrayPlan) : List (Option α) :=
  plan.removeRuns.foldl removeRun (baseValues o.entryValueAt o.base.length)

/-- **Every run of edits** of an array's draft is the same splices on the plain list, and the plan
carried out on the base gives the elements at its end: its new order is a bijection where no base
element stands twice, and the plan from the pieces alone does what the other one does. -/
theorem overlay_exact (base : List α) {edits : List (Edit α)}
    (hfits : (fresh base).FitsAll edits) :
    ∃ o, (fresh base).run edits = some o
      ∧ o.elements = (fresh base).plainRun (base.map some) edits
      ∧ (∀ value ∈ o.elements, value.isSome)
      ∧ o.applyPlan o.buildArrayPlan = o.elements
      ∧ (∀ permutation, o.buildArrayPlan.permutation = some permutation →
          (targetBaseOf o.piecesOf).Nodup →
            permutation.Perm (List.range (o.remaining o.buildArrayPlan).length))
      ∧ ∀ plan, orderedArrayPlan o.base.length o.piecesOf = some plan →
          o.applyPlan plan = o.applyPlan (elementArrayPlan o.base.length o.piecesOf) := by
  obtain ⟨o, hrun, hwf, helements⟩ := elements_run (wf_fresh base) hfits
  have hvalid := hwf.target_valid
  have hread := elements_eq hwf.sized
  have hordered : ∀ plan, orderedArrayPlan o.base.length o.piecesOf = some plan →
      o.applyPlan plan = o.elements := by
    intro plan hplan
    rw [hwf.piecesOf_eq] at hplan
    rw [applyPlan, hwf.piecesOf_eq, hread]
    exact apply_orderedArrayPlan o.entryValueAt hvalid hplan
  have helement : o.applyPlan (elementArrayPlan o.base.length o.piecesOf) = o.elements := by
    rw [applyPlan, hwf.piecesOf_eq, hread]
    exact apply_elementArrayPlan o.entryValueAt hvalid
  have hbuilt : o.buildArrayPlan = (orderedArrayPlan o.base.length o.piecesOf).getD
      (elementArrayPlan o.base.length o.piecesOf) := by
    rw [buildArrayPlan]
    split
    · next plan hcached =>
      rw [hwf.piecesOf_eq]
      exact hwf.plan_eq plan hcached
    · rfl
  refine ⟨o, hrun, ?_, ?_, ?_, ?_, ?_⟩
  · rw [helements, elements_fresh]
  · intro value hmem
    rw [hread] at hmem
    obtain ⟨entry, hentry, rfl⟩ := List.mem_map.1 hmem
    exact (hwf.valid entry hentry).isSome
  · rw [hbuilt]
    cases hplan : orderedArrayPlan o.base.length o.piecesOf with
    | none => exact helement
    | some plan => exact hordered plan hplan
  · intro permutation hpermutation hnodup
    rw [hbuilt] at hpermutation ⊢
    cases hplan : orderedArrayPlan o.base.length o.piecesOf with
    | none =>
      rw [hplan, Option.getD_none] at hpermutation
      rw [Option.getD_none, remaining]
      rw [hwf.piecesOf_eq] at hnodup hpermutation ⊢
      exact permutation_elementArrayPlan o.entryValueAt hvalid hnodup hpermutation
    | some plan =>
      -- the plan from the pieces alone keeps the order
      obtain ⟨ranges, -, hsome⟩ := Option.bind_eq_some_iff.1 hplan
      obtain rfl := Option.some.inj hsome
      rw [hplan] at hpermutation
      cases hpermutation
  · intro plan hplan
    rw [hordered plan hplan, helement]

/-- An item is appended to a base of three, and the array is reversed. -/
theorem overlay_reversed : ∃ o : Overlay Nat,
    (fresh [1, 2, 3]).run
        [.allocate [9], .replace 3 0 [singletonPiece (.insert 0, 0)], .reverse] = some o
      ∧ o.elements = [some 9, some 3, some 2, some 1]
      ∧ o.applyPlan o.buildArrayPlan = o.elements := by
  have hfits : (fresh [1, 2, 3]).FitsAll
      [.allocate [9], .replace 3 0 [singletonPiece (.insert 0, 0)], .reverse] := by
    refine ⟨trivial, fun o ho => ⟨⟨fun piece hp => ?_, ?_⟩, fun _ _ => ⟨trivial, fun _ _ => trivial⟩⟩⟩
    · obtain rfl := List.mem_singleton.1 hp
      obtain rfl := Option.some.inj ho
      refine ⟨⟨Nat.one_pos, .inl rfl⟩, fun entry hmem => ?_⟩
      obtain rfl : entry = (.insert 0, 0) := List.mem_singleton.1 hmem
      exact ⟨Int.le_refl 0, Int.one_pos⟩
    · -- the array ends with its base
      obtain rfl := Option.some.inj ho
      intro addition source target htail
      cases htail
  obtain ⟨o, hrun, helements, -, hplan, -, -⟩ := overlay_exact [1, 2, 3] hfits
  refine ⟨o, hrun, ?_, hplan⟩
  rw [helements]
  decide +kernel

/-- A backward piece that continues the list at the end of the array is copied forwards, past its
own start. -/
theorem overlay_backward :
    ((fresh ([] : List Nat)).run
        [.allocate [1, 2], .replace 0 0 [⟨.insert 0, 0, 2, 1⟩], .allocate [3, 4, 5],
          .replace 2 0 [⟨.insert 1, 1, 2, -1⟩]]).map elements
        = some [some 1, some 2, some 4, some 5]
      ∧ (fresh ([] : List Nat)).plainRun []
        [.allocate [1, 2], .replace 0 0 [⟨.insert 0, 0, 2, 1⟩], .allocate [3, 4, 5],
          .replace 2 0 [⟨.insert 1, 1, 2, -1⟩]] = [some 1, some 2, some 4, some 3] := by
  decide +kernel

end Overlay

end

end ThreeXhaust.Delta.Pieces
