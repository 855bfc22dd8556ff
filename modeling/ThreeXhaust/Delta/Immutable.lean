import ThreeXhaust.Delta.Apply

/-!
# Replays that copy

`applyImmutableBatches` and `applyImmutable` of `chord/src/delta/index.ts`, and
`applyImmutableTrusted` of `apply-immutable-trusted.ts`. The identity of a container is a number; a
replay owns the containers it copied, and copies a container once, before it changes something in
it. An append to an array that is not owned takes a way of its own.

* **`copyContainers_data`** — copying changes no data, and fails where the operation means nothing.
-/

namespace ThreeXhaust.Delta

open Utf16

/-! ## Ownership -/

/-- The containers a replay owns; `next` is an identity that no container has yet. -/
structure Copies where
  owned : List Nat
  next : Nat

def Value.tag? : Value Nat → Option Nat
  | .arr tag _ => some tag
  | .obj tag _ => some tag
  | _ => none

def Value.retag (tag : Nat) : Value Nat → Value Nat
  | .arr _ items => .arr tag items
  | .obj _ fields => .obj tag fields
  | value => value

def Copies.has (c : Copies) (value : Value Nat) : Bool := value.tag?.any (· ∈ c.owned)

def Copies.add (c : Copies) : Copies := ⟨c.next :: c.owned, c.next + 1⟩

/-- The container itself when it is owned, else a copy that is. -/
def Copies.own (c : Copies) (value : Value Nat) : Value Nat × Copies :=
  if c.has value then (value, c) else (value.retag c.next, c.add)

/-! ## `applyImmutableBatches` -/

/-- The loop of `copyContainers`, from a container that is owned. -/
@[grind =] def copyChildren (full : Path) : Path → Value Nat → Copies → Result (Value Nat × Copies)
  | [], node, c => .ok (node, c)
  | seg :: path, node, c =>
    if node.hasOwn seg = false then .error (.path full)
    else do
      checkSeg node seg
      match node.own seg with
      | some child =>
        if child.isObj = false then .error (.path full)
        else do
          let (copied, c) ← copyChildren full path (c.own child).1 (c.own child).2
          .ok (node.define seg copied, c)
      | none => .error (.path full)

def copyContainers (root : Value Nat) (path : Path) (c : Copies) : Result (Value Nat × Copies) :=
  if root.isObj = false then .error (.path path)
  else copyChildren path path (c.own root).1 (c.own root).2

def plainSeg : Value Nat → Seg → Bool
  | .obj _ _, .key name => name ∉ reservedSegments
  | .arr _ _, .index _ => true
  | _, _ => false

/-- The walk of `appendCopy`, over own properties. -/
@[grind =] def appendTarget : Path → Value Nat → Option (Value Nat)
  | [], target => some target
  | seg :: path, target =>
    if plainSeg target seg && target.hasOwn seg then (target.own seg).bind (appendTarget path)
    else none

/-- `appendCopy`: an append to an array that is not owned. -/
def appendCopy (root : Value Nat) (path : Path) (index remove : Nat) (items : List (Value Nat))
    (c : Copies) : Result (Option (Value Nat × Copies)) :=
  if remove ≠ 0 then .ok none
  else
    match appendTarget path root with
    | some (.arr tag xs) =>
      if c.has (.arr tag xs) ∨ index ≠ xs.length then .ok none
      else
        match path.getLast? with
        | none => .ok (some (.arr c.next (xs ++ items), c.add))
        | some key => do
          let (copied, c') ← copyContainers root path.dropLast c.add
          let parent ← resolve copied path.dropLast
          .ok (some (mutateAt (parent.define key (.arr c.next (xs ++ items))) path.dropLast copied,
            c'))
    | _ => .ok none

def copyAndApply (state : Value Nat × Copies) (op : Op (Value Nat)) :
    Result (Value Nat × Copies) := do
  let (copied, c) ← copyContainers state.1 op.target state.2
  let root ← apply copied [op]
  .ok (root, c)

/-- One operation of `applyImmutableBatches`. -/
def immutableStep (state : Value Nat × Copies) (op : Op (Value Nat)) :
    Result (Value Nat × Copies) := do
  assertValidOp op
  match op with
  | .r value => .ok (value, state.2)
  | .p path index remove items => do
    match ← appendCopy state.1 path index remove items state.2 with
    | some appended => .ok appended
    | none => copyAndApply state op
  | _ => copyAndApply state op

mutual

def Value.bound : Value Nat → Nat
  | .arr tag items => max (tag + 1) (boundItems items)
  | .obj tag fields => max (tag + 1) (boundFields fields)
  | _ => 0

@[grind =] def boundItems : List (Value Nat) → Nat
  | [] => 0
  | item :: items => max item.bound (boundItems items)

@[grind =] def boundFields : List (Text × Value Nat) → Nat
  | [] => 0
  | (_, value) :: fields => max value.bound (boundFields fields)

end

@[grind =] def Op.bound : Op (Value Nat) → Nat
  | .r value => value.bound
  | .s _ value => value.bound
  | .p _ _ _ items => boundItems items
  | _ => 0

def Copies.start (root : Value Nat) (ops : List (Op (Value Nat))) : Copies :=
  ⟨[], ops.foldl (fun n op => max n op.bound) root.bound⟩

def applyImmutableBatches (root : Value Nat) (batches : List (List (Op (Value Nat)))) :
    Result (Value Nat) := do
  let state ← batches.foldlM (fun state ops => ops.foldlM immutableStep state)
    (root, Copies.start root batches.flatten)
  .ok state.1

def applyImmutable (root : Value Nat) (ops : List (Op (Value Nat))) : Result (Value Nat) :=
  applyImmutableBatches root [ops]

/-! ## Copying changes no data -/

theorem data_retag (tag : Nat) (value : Value Nat) : (value.retag tag).data = value.data := by
  cases value <;> rfl

theorem data_own (c : Copies) (value : Value Nat) : (c.own value).1.data = value.data := by
  unfold Copies.own
  split
  · rfl
  · exact data_retag _ _

theorem isObj_data {a b : Value Nat} (h : a.data = b.data) : a.isObj = b.isObj := by
  cases a <;> cases b <;> first | rfl | cases h

theorem hasOwn_of_own {node child : Value Nat} {seg : Seg} (h : node.own seg = some child) :
    node.hasOwn seg = true ∧ checkSeg node seg = .ok () := by
  cases node with
  | arr tag items =>
    cases seg with
    | key name => cases h
    | index i => exact ⟨decide_eq_true (List.getElem?_eq_some_iff.mp h).1, rfl⟩
  | obj tag fields =>
    refine ⟨?_, rfl⟩
    show (getField fields seg.name).isSome = true
    rw [show getField fields seg.name = some child from h]
    rfl
  | _ => cases h

theorem data_define_own {node child copied : Value Nat} {seg : Seg}
    (h : node.own seg = some child) (hdata : copied.data = child.data) :
    (node.define seg copied).data = node.data := by
  have hput := put_own h copied
  rw [hdata, Data.put_child (by rw [child_data, h]; rfl)] at hput
  exact (Option.some.inj hput).symm

theorem copyChildren_cons (full : Path) (seg : Seg) (path : Path) (node : Value Nat) (c : Copies) :
    (∃ child, node.own seg = some child ∧ child.isObj = true
        ∧ copyChildren full (seg :: path) node c
          = (do
            let (copied, c) ← copyChildren full path (c.own child).1 (c.own child).2
            .ok (node.define seg copied, c)))
      ∨ (∃ e, copyChildren full (seg :: path) node c = .error e)
        ∧ ∀ child, node.own seg = some child → child.isObj = false := by
  cases hown : node.own seg with
  | none =>
    right
    refine ⟨?_, nofun⟩
    rw [copyChildren, hown]
    split
    · exact ⟨_, rfl⟩
    · cases checkSeg node seg with
      | error e => exact ⟨e, rfl⟩
      | ok _ => exact ⟨_, rfl⟩
  | some child =>
    obtain ⟨hhas, hseg⟩ := hasOwn_of_own hown
    cases hobj : child.isObj with
    | true =>
      left
      refine ⟨child, rfl, hobj, ?_⟩
      rw [copyChildren, hown, hhas, hseg]
      simp only [Bool.true_eq_false, if_false, hobj]
      rfl
    | false =>
      right
      refine ⟨?_, ?_⟩
      · rw [copyChildren, hown, hhas, hseg]
        simp only [Bool.true_eq_false, if_false, hobj, if_true]
        exact ⟨_, rfl⟩
      · intro other hother
        cases hother
        exact hobj

variable {c : Copies}

theorem copyChildren_ok {full path : Path} {node node' : Value Nat} {c' : Copies}
    (h : copyChildren full path node c = .ok (node', c')) : node'.data = node.data := by
  induction path generalizing node node' c c' with
  | nil =>
    cases h
    rfl
  | cons seg path ih =>
    rcases copyChildren_cons full seg path node c with ⟨child, hown, -, hstep⟩ | ⟨⟨e, herror⟩, -⟩
    · rw [hstep] at h
      obtain ⟨⟨copied, c1⟩, hcopied, hdone⟩ := Except.bind_eq_ok.mp h
      cases hdone
      exact data_define_own hown ((ih hcopied).trans (data_own c child))
    · rw [herror] at h
      cases h

variable {f : Data → Option Data}

theorem alter_cons_prim {value : Value Nat} (hobj : value.isObj = false) (seg : Seg) (path : Path)
    : Data.alter f (seg :: path) value.data = none := by
  have hchild : value.data.child seg = none := by
    cases value with
    | arr tag items => cases hobj
    | obj tag fields => cases hobj
    | _ => rfl
  simp only [Data.alter, hchild, Option.bind_eq_bind, Option.bind_none]

theorem alter_prim (hf : ∀ x : Value Nat, x.isObj = false → f x.data = none) {value : Value Nat}
    (hobj : value.isObj = false) (path : Path) : Data.alter f path value.data = none := by
  cases path with
  | nil => exact hf value hobj
  | cons seg path => exact alter_cons_prim hobj seg path

theorem copyChildren_error {full path : Path} {node : Value Nat} {e : DeltaError}
    (hf : ∀ x : Value Nat, x.isObj = false → f x.data = none) (hnode : node.isObj = true)
    (h : copyChildren full path node c = .error e) : Data.alter f path node.data = none := by
  induction path generalizing node c e with
  | nil => cases h
  | cons seg path ih =>
    simp only [Data.alter, child_data]
    rcases copyChildren_cons full seg path node c with
      ⟨child, hown, hobj, hstep⟩ | ⟨-, hprim⟩
    · rw [hstep] at h
      cases hcopied : copyChildren full path (c.own child).1 (c.own child).2 with
      | ok result =>
        rw [hcopied] at h
        cases h
      | error e' =>
        have hdata := data_own c child
        have hnone := ih ((isObj_data hdata).trans hobj) hcopied
        rw [hdata] at hnone
        rw [hown]
        simp only [Option.map_some, Option.bind_eq_bind, Option.bind_some, hnone, Option.bind_none]
    · cases hown : node.own seg with
      | none => rfl
      | some child =>
        -- the walk ends at a child that is no container
        have hnone := alter_prim hf (hprim child hown) path
        simp only [Option.map_some, Option.bind_eq_bind, Option.bind_some, hnone, Option.bind_none]

variable {root : Value Nat}

/-- **Copying the containers of a path** changes no data. -/
theorem copyContainers_ok {root' : Value Nat} {path : Path} {c' : Copies}
    (h : copyContainers root path c = .ok (root', c')) : root'.data = root.data := by
  unfold copyContainers at h
  split at h
  · cases h
  · exact (copyChildren_ok h).trans (data_own c root)

theorem copyContainers_error {path : Path} {e : DeltaError}
    (hf : ∀ x : Value Nat, x.isObj = false → f x.data = none)
    (h : copyContainers root path c = .error e) : Data.alter f path root.data = none := by
  unfold copyContainers at h
  split at h
  · next hobj => exact alter_prim hf hobj path
  · next hobj =>
    have hdata := data_own c root
    have hroot : (c.own root).1.isObj = true := by
      rw [isObj_data hdata]
      simpa using hobj
    have hnone := copyChildren_error hf hroot h
    rw [hdata] at hnone
    exact hnone

/-! ## A replay does what the operations mean -/

def replayed (result : Result (Value Nat × Copies)) : Option Data := outcome (result.map Prod.fst)

theorem copyAndApply_data {op : Op (Value Nat)} (hvalid : assertValidOp op = .ok ())
    (hop : ∀ value, op ≠ .r value) (root : Value Nat) (c : Copies) :
    replayed (copyAndApply (root, c) op) = root.data.step op.data := by
  unfold copyAndApply
  cases hcopy : copyContainers root op.target c with
  | error e =>
    have hnone := copyContainers_error (fun _ hx => edit_prim_none hx hop) hcopy
    have hdata : assertValidOp op.data = .ok () := (assertValidOp_map _ op).trans hvalid
    rw [Data.step_of_valid hdata, show op.data.target = op.target from target_map _ op, hnone]
    rfl
  | ok result =>
    obtain ⟨copied, c'⟩ := result
    have hdata := copyContainers_ok hcopy
    have happly := apply_data copied [op]
    rw [hdata, List.map_singleton, Data.replay_cons] at happly
    rw [show root.data.step op.data = (root.data.step op.data).bind (·.replay []) by
      cases root.data.step op.data <;> rfl, ← happly]
    show replayed (apply copied [op] >>= fun root => .ok (root, c')) = _
    cases apply copied [op] with
    | error e => rfl
    | ok result => rfl

theorem appendTarget_at {path : Path} {target : Value Nat}
    (h : appendTarget path root = some target) : Data.at path root.data = some target.data := by
  induction path generalizing root with
  | nil =>
    cases h
    rfl
  | cons seg path ih =>
    rw [appendTarget] at h
    split at h
    · rw [Data.at, child_data]
      cases hown : root.own seg with
      | none =>
        rw [hown] at h
        cases h
      | some child =>
        rw [hown] at h
        exact ih h
    · cases h

theorem path_split {path : Path} {key : Seg} (hlast : path.getLast? = some key) :
    path = path.dropLast ++ [key] := by
  have hne : path ≠ [] := by
    rintro rfl
    cases hlast
  rw [List.getLast?_eq_some_getLast hne] at hlast
  obtain rfl := Option.some.inj hlast
  exact (List.dropLast_concat_getLast hne).symm

theorem exists_parent {path : Path} {x : Data} (h : Data.at path root.data = some x) {key : Seg}
    (hlast : path.getLast? = some key) :
    ∃ parent, resolveValue path.dropLast path.dropLast root = .ok parent
      ∧ parent.isObj = true ∧ parent.data.child key = some x := by
  rw [path_split hlast, Data.at_append] at h
  obtain ⟨container, hcontainer, hkey⟩ := Option.bind_eq_some_iff.mp h
  obtain ⟨parent, hres, hparent⟩ := exists_of_at path.dropLast hcontainer
  have hchild : container.child key = some x := by
    obtain ⟨child, hchild, hend⟩ := Option.bind_eq_some_iff.mp hkey
    cases hend
    exact hchild
  refine ⟨parent, hres, ?_, hparent ▸ hchild⟩
  cases parent with
  | arr tag items => rfl
  | obj tag fields => rfl
  | _ =>
    rw [← hparent] at hchild
    cases hchild

/-- **The append in one copy** is the append; it is tried only where it can be done. -/
theorem appendCopy_data (root : Value Nat) (c : Copies) {path : Path} {index remove : Nat}
    {items : List (Value Nat)} (hvalid : assertValidOp (.p path index remove items) = .ok ()) :
    appendCopy root path index remove items c = .ok none
      ∨ ∃ root' c', appendCopy root path index remove items c = .ok (some (root', c'))
        ∧ root.data.step (Op.p path index remove items).data = some root'.data := by
  have hdata : assertValidOp (Op.p path index remove items).data = .ok () := hvalid
  rw [Data.step_of_valid hdata]
  unfold appendCopy
  split
  · exact .inl rfl
  · next hremove =>
    have hremove : remove = 0 := by omega
    subst hremove
    split
    · next tag xs htarget =>
      have hat := appendTarget_at htarget
      split
      · exact .inl rfl
      · next hplace =>
        obtain ⟨-, hindex⟩ := not_or.mp hplace
        have hindex : index = xs.length := not_not.mp hindex
        right
        -- the array with the items behind it
        have hedit : (Op.p path index 0 items).data.edit (Value.arr tag xs).data
            = some (Value.arr c.next (xs ++ items)).data := by
          have hlength : (xs.map Value.data).length = index := by rw [List.length_map, hindex]
          show some (Data.arr (splice _ _ _ _)) = _
          rw [Value.data, dataItems_eq, dataItems_eq, List.map_append, ← hlength, splice_length]
        split
        · next hlast =>
          rw [List.getLast?_eq_none_iff.mp hlast] at hat
          refine ⟨_, _, rfl, ?_⟩
          rw [show (Op.p path index 0 items).data.target = [] from List.getLast?_eq_none_iff.mp hlast,
            Data.alter, Option.some.inj hat, hedit]
        · next key hlast =>
          have hinner : ∀ parent : Value Nat, parent.data.child key = some (Value.arr tag xs).data →
              Data.alter (Op.p path index 0 items).data.edit [key] parent.data
                = some (parent.define key (.arr c.next (xs ++ items))).data := by
            intro parent hchild
            rw [child_data] at hchild
            obtain ⟨child, hown, hdata⟩ := Option.map_eq_some_iff.mp hchild
            simp only [Data.alter, child_data, hown, Option.map_some, Option.bind_eq_bind,
              Option.bind_some, hdata, hedit]
            exact put_own hown _
          have hsplit : Data.alter (Op.p path index 0 items).data.edit
              (Op.p path index 0 items).data.target root.data
              = Data.alter (Data.alter (Op.p path index 0 items).data.edit [key]) path.dropLast
                root.data := by
            rw [← Data.alter_append, ← path_split hlast]
            rfl
          rw [hsplit]
          cases hcopy : copyContainers root path.dropLast c.add with
          | error e =>
            -- the parent is there, so it can be copied
            obtain ⟨parent, hres, -, hchild⟩ := exists_parent hat hlast
            have hsome := alter_data hres (hinner parent hchild)
            rw [copyContainers_error (fun x hx => alter_cons_prim hx key []) hcopy] at hsome
            cases hsome
          | ok result =>
            obtain ⟨copied, c'⟩ := result
            have hcopied := copyContainers_ok hcopy
            rw [← hcopied] at hat ⊢
            obtain ⟨parent, hres, hobj, hchild⟩ := exists_parent hat hlast
            refine ⟨mutateAt (parent.define key (.arr c.next (xs ++ items))) path.dropLast copied, c',
              ?_, alter_data hres (hinner parent hchild)⟩
            rw [Except.ok_bind]
            show (resolve copied path.dropLast >>= _) = _
            rw [resolve_ok hres, hobj]
            rfl
    · exact .inl rfl

/-- **One operation of a replay** does what it means. -/
theorem immutableStep_data (state : Value Nat × Copies) (op : Op (Value Nat)) :
    replayed (immutableStep state op) = state.1.data.step op.data := by
  obtain ⟨root, c⟩ := state
  unfold immutableStep
  cases hvalid : assertValidOp op with
  | error e =>
    have hdata : assertValidOp op.data = .error e := (assertValidOp_map _ op).trans hvalid
    rw [Data.step, hdata]
    rfl
  | ok _ =>
    rw [Except.ok_bind]
    cases op with
    | r value => rfl
    | p path index remove items =>
      rcases appendCopy_data root c hvalid with hnone | ⟨root', c', hsome, hdata⟩
      · simp only [hnone, Except.ok_bind]
        exact copyAndApply_data hvalid nofun root c
      · simp only [hsome, Except.ok_bind]
        exact hdata.symm
    | _ => exact copyAndApply_data hvalid nofun root c

theorem foldlM_immutableStep_data (state : Value Nat × Copies) (ops : List (Op (Value Nat))) :
    replayed (ops.foldlM immutableStep state) = state.1.data.replay (ops.map Op.data) := by
  induction ops generalizing state with
  | nil => rfl
  | cons op ops ih =>
    have hop := immutableStep_data state op
    rw [List.foldlM_cons, List.map_cons, Data.replay_cons, ← hop]
    cases immutableStep state op with
    | error e => rfl
    | ok next => exact ih next

theorem foldlM_batches_data (state : Value Nat × Copies) (batches : List (List (Op (Value Nat)))) :
    replayed (batches.foldlM (fun state ops => ops.foldlM immutableStep state) state)
      = state.1.data.replay (batches.flatten.map Op.data) := by
  induction batches generalizing state with
  | nil => rfl
  | cons ops batches ih =>
    have hops := foldlM_immutableStep_data state ops
    rw [List.foldlM_cons, List.flatten_cons, List.map_append, Data.replay_append, ← hops]
    cases ops.foldlM immutableStep state with
    | error e => rfl
    | ok next => exact ih next

theorem applyImmutableBatches_data (root : Value Nat) (batches : List (List (Op (Value Nat)))) :
    outcome (applyImmutableBatches root batches)
      = root.data.replay (batches.flatten.map Op.data) := by
  have hfold := foldlM_batches_data (root, Copies.start root batches.flatten) batches
  unfold applyImmutableBatches
  rw [← hfold]
  cases batches.foldlM (fun state ops => ops.foldlM immutableStep state)
    (root, Copies.start root batches.flatten) with
  | error e => rfl
  | ok state => rfl

theorem applyImmutable_data (root : Value Nat) (ops : List (Op (Value Nat))) :
    outcome (applyImmutable root ops) = root.data.replay (ops.map Op.data) := by
  have hbatch := applyImmutableBatches_data root [ops]
  rw [List.flatten_singleton] at hbatch
  exact hbatch

theorem foldlM_applyImmutable_data (root : Value Nat) (batches : List (List (Op (Value Nat)))) :
    outcome (batches.foldlM applyImmutable root)
      = root.data.replay (batches.flatten.map Op.data) := by
  induction batches generalizing root with
  | nil => rfl
  | cons ops batches ih =>
    have hops := applyImmutable_data root ops
    rw [List.foldlM_cons, List.flatten_cons, List.map_append, Data.replay_append, ← hops]
    cases applyImmutable root ops with
    | error e => rfl
    | ok next => exact ih next

/-! ## `applyImmutableTrusted` -/

/-- The cells of an array that may have holes. -/
abbrev Cells := List (Option (Value Nat))

def copyWithin (cells : Cells) (target start stop : Nat) : Cells :=
  let dest := min target cells.length
  let source := min start cells.length
  let count := min (min stop cells.length - source) (cells.length - dest)
  cells.take dest ++ (cells.drop source).take count ++ cells.drop (dest + count)

def setLength (cells : Cells) (length : Nat) : Cells :=
  cells.take length ++ List.replicate (length - cells.length) none

/-- `defineData` on an array. -/
def defineCell (cells : Cells) (index : Nat) (value : Value Nat) : Cells :=
  (setLength cells (max cells.length (index + 1))).set index (some value)

/-- A hole is no JSON value: the model stops where an array would have one. -/
def denseItems (cells : Cells) : Result (List (Value Nat)) :=
  match cells.mapM id with
  | some items => .ok items
  | none => .error (.typeError "sparse array")

def spliceTrusted (items : List (Value Nat)) (start remove : Nat) (inserted : List (Value Nat)) :
    Result (List (Value Nat)) :=
  let cells : Cells := items.map some
  let length := items.length + inserted.length - remove
  if remove > items.length + inserted.length then .error (.typeError "Invalid array length")
  else
    let moved :=
      if inserted.length > remove then
        copyWithin (setLength cells length) (start + inserted.length) (start + remove) items.length
      else if inserted.length < remove then
        setLength (copyWithin cells (start + inserted.length) (start + remove) items.length) length
      else cells
    denseItems (inserted.zipIdx.foldl (fun cells item => defineCell cells (start + item.2) item.1)
      moved)

def permuteTrusted (items : List (Value Nat)) (permutation : List Nat) :
    Result (List (Value Nat)) :=
  if items.length ≠ permutation.length then
    .error (.typeError "Trusted permutation length mismatch")
  else denseItems (permutation.map fun i => items[i]?)

/-- `defineData`; trusted operations name the elements of an array by number. -/
def defineTrusted (target : Value Nat) (key : Seg) (value : Value Nat) : Result (Value Nat) :=
  match target, key with
  | .arr tag items, .index i => do
    let items ← denseItems (defineCell (items.map some) i value)
    .ok (.arr tag items)
  | .arr _ _, .key _ => .error (.typeError "Trusted array key is not numeric")
  | target, key => .ok (target.define key value)

/-- The loop of `copyPath`, from a container that is owned. -/
@[grind =] def copyPathChildren : Path → Value Nat → Copies → Result (Value Nat × Copies)
  | [], node, c => .ok (node, c)
  | seg :: path, node, c =>
    match node.own seg with
    | some child =>
      if child.isObj = false then .error (.typeError "Trusted operation path is not a container")
      else do
        let (copied, c) ← copyPathChildren path (c.own child).1 (c.own child).2
        .ok (node.define seg copied, c)
    | none => .error (.typeError "Trusted operation path is not a container")

def copyPath (root : Value Nat) (path : Path) (c : Copies) : Result (Value Nat × Copies) :=
  if root.isObj = false then .error (.typeError "Trusted operation root is not a container")
  else copyPathChildren path (c.own root).1 (c.own root).2

/-- What a trusted operation does to the container that `copyPath` leads to. -/
def editTrusted (op : Op (Value Nat)) (target : Value Nat) : Result (Value Nat) :=
  match op with
  | .p _ index remove items =>
    match target with
    | .arr tag xs => do
      let xs ← spliceTrusted xs index remove items
      .ok (.arr tag xs)
    | _ => .error (.typeError "Trusted array operation target is not an array")
  | .m _ permutation =>
    match target with
    | .arr tag xs => do
      let xs ← permuteTrusted xs permutation
      .ok (.arr tag xs)
    | _ => .error (.typeError "Trusted array operation target is not an array")
  | .s path value =>
    match path.getLast? with
    | some key => defineTrusted target key value
    | none => .error (.typeError "path is empty")
  | .d path =>
    match target, path.getLast? with
    | .arr tag xs, some (.index i) => do
      let xs ← spliceTrusted xs i 1 []
      .ok (.arr tag xs)
    | .arr _ _, _ => .error (.typeError "Trusted array deletion key is not numeric")
    | target, some key => .ok (target.delete key)
    | _, none => .error (.typeError "path is empty")
  | .a path text =>
    match path.getLast? with
    | some key =>
      match target.own key with
      | some (.str current) => defineTrusted target key (.str (current ++ text))
      | _ => .error (.typeError "Trusted append target is not a string")
    | none => .error (.typeError "path is empty")
  | .t path count =>
    match path.getLast? with
    | some key =>
      match target.own key with
      | some (.str current) => defineTrusted target key (.str (current.drop count))
      | _ => .error (.typeError "Trusted truncate target is not a string")
    | none => .error (.typeError "path is empty")
  | .r _ => .ok target

/-- One operation of `applyImmutableTrusted`. -/
def trustedStep (state : Value Nat × Copies) (op : Op (Value Nat)) :
    Result (Value Nat × Copies) :=
  match op with
  | .r value => .ok (value, state.2)
  | op => do
    let (copied, c) ← copyPath state.1 op.target state.2
    let target ← resolve copied op.target
    let changed ← editTrusted op target
    .ok (mutateAt changed op.target copied, c)

def applyImmutableTrusted (root : Value Nat) (ops : List (Op (Value Nat))) : Result (Value Nat) := do
  let state ← ops.foldlM trustedStep (root, Copies.start root ops)
  .ok state.1

/-! ## Where `apply` succeeds, the unchecked replay does the same -/

theorem denseItems_some (items : List (Value Nat)) : denseItems (items.map some) = .ok items := by
  have hall : (items.map some).mapM id = some items := by
    induction items with
    | nil => rfl
    | cons item items ih =>
      rw [List.map_cons, List.mapM_cons, ih]
      rfl
  unfold denseItems
  rw [hall]

theorem defineCell_lt {items : List (Value Nat)} {i : Nat} (hi : i < items.length)
    (value : Value Nat) :
    defineCell (items.map some) i value = (items.set i value).map some := by
  have hlength : max (items.map some).length (i + 1) = (items.map some).length := by
    rw [List.length_map]
    omega
  rw [defineCell, setLength, hlength, List.take_length, Nat.sub_self, List.replicate_zero,
    List.append_nil, List.map_set]

theorem defineCell_length (items : List (Value Nat)) (value : Value Nat) :
    defineCell (items.map some) items.length value = (items ++ [value]).map some := by
  have hlength : max (items.map some).length (items.length + 1) = items.length + 1 := by
    rw [List.length_map]
    omega
  rw [defineCell, setLength, hlength, List.length_map, Nat.add_sub_cancel_left,
    List.take_of_length_le (by simp)]
  simp

variable {y : Data}

theorem defineTrusted_data {target : Value Nat} {key : Seg} {value : Value Nat}
    (h : target.data.put key value.data = some y) :
    ∃ changed, defineTrusted target key value = .ok changed ∧ changed.data = y := by
  cases target with
  | arr tag items =>
    cases key with
    | key name => cases h
    | index i =>
      simp only [Value.data, Data.put, dataItems_eq, List.length_map] at h
      split at h
      · next hi =>
        refine ⟨.arr tag (items.set i value), ?_, ?_⟩
        · rw [defineTrusted, defineCell_lt hi, denseItems_some]
          rfl
        · rw [Value.data, dataItems_eq, List.map_set]
          exact Option.some.inj h
      · split at h
        · next hi =>
          refine ⟨.arr tag (items ++ [value]), ?_, ?_⟩
          · rw [defineTrusted, hi, defineCell_length, denseItems_some]
            rfl
          · rw [Value.data, dataItems_eq, List.map_append]
            exact Option.some.inj h
        · cases h
  | obj tag fields =>
    refine ⟨.obj tag (setField fields key.name value), rfl, ?_⟩
    rw [Value.data, dataFields_setField]
    exact Option.some.inj h
  | _ => cases h

theorem spliceTrusted_one {items : List (Value Nat)} {i : Nat} (hi : i < items.length) :
    spliceTrusted items i 1 [] = .ok (items.eraseIdx i) := by
  have hmoved : setLength (copyWithin (items.map some) i (i + 1) items.length) (items.length - 1)
      = (items.eraseIdx i).map some := by
    have hdest : min i (items.map some).length = i := by
      rw [List.length_map]
      omega
    have hsource : min (i + 1) (items.map some).length = i + 1 := by
      rw [List.length_map]
      omega
    have hcount : min (min items.length (items.map some).length - (i + 1))
        ((items.map some).length - i) = items.length - (i + 1) := by
      rw [List.length_map]
      omega
    have hcopy : copyWithin (items.map some) i (i + 1) items.length
        = (items.take i ++ items.drop (i + 1) ++ items.drop (items.length - 1)).map some := by
      have htail : ((items.map some).drop (i + 1)).take (items.length - (i + 1))
          = (items.map some).drop (i + 1) := by
        apply List.take_of_length_le
        rw [List.length_drop, List.length_map]
      simp only [copyWithin]
      rw [hdest, hsource, hcount, htail,
        show i + (items.length - (i + 1)) = items.length - 1 by omega, List.map_append,
        List.map_append, List.map_take, List.map_drop, List.map_drop]
    have hlength : (items.take i ++ items.drop (i + 1)).length = items.length - 1 := by
      simp only [List.length_append, List.length_take, List.length_drop]
      omega
    rw [hcopy, setLength, ← List.map_take, List.take_append_of_le_length (by omega),
      List.take_of_length_le (by omega), List.eraseIdx_eq_take_drop_succ]
    have hlong : items.length - 1
        ≤ ((items.take i ++ items.drop (i + 1) ++ items.drop (items.length - 1)).map some).length := by
      rw [List.length_map, List.length_append]
      omega
    rw [Nat.sub_eq_zero_of_le hlong, List.replicate_zero, List.append_nil]
  unfold spliceTrusted
  simp only [List.length_nil, Nat.add_zero, List.zipIdx_nil, List.foldl_nil]
  rw [if_neg (by omega), if_neg (by omega), if_pos (by omega), hmoved, denseItems_some]

theorem editTrusted_data {op : Op (Value Nat)} {path : Path} (hop : op.property = some path)
    {target : Value Nat} (h : op.data.edit target.data = some y) :
    ∃ changed, editTrusted op target = .ok changed ∧ changed.data = y := by
  have htext : ∀ key f, target.data.putText key f = some y →
      ∃ current, target.own key = some (.str current)
        ∧ target.data.put key (Value.str (τ := Nat) (f current)).data = some y := by
    intro key f hput
    rw [Data.putText, child_data] at hput
    cases hown : target.own key with
    | none =>
      rw [hown] at hput
      cases hput
    | some child =>
      rw [hown] at hput
      cases child with
      | str current => exact ⟨current, rfl, hput⟩
      | _ => cases hput
  cases op with
  | s path' value =>
    cases hop
    obtain ⟨key, hlast, hput⟩ := Option.bind_eq_some_iff.mp h
    obtain ⟨changed, hchanged, hdata⟩ := defineTrusted_data hput
    refine ⟨changed, ?_, hdata⟩
    simp only [editTrusted, hlast]
    exact hchanged
  | d path' =>
    cases hop
    obtain ⟨key, hlast, hremove⟩ := Option.bind_eq_some_iff.mp h
    simp only [editTrusted, hlast]
    cases target with
    | arr tag items =>
      cases key with
      | key name => cases hremove
      | index i =>
        simp only [Value.data, Data.remove, dataItems_eq, List.length_map] at hremove
        split at hremove
        · next hi =>
          refine ⟨.arr tag (items.eraseIdx i), ?_, ?_⟩
          · simp only [spliceTrusted_one hi]
            rfl
          · rw [Value.data, dataItems_eq, ← List.eraseIdx_map]
            exact Option.some.inj hremove
        · cases hremove
    | obj tag fields =>
      refine ⟨.obj tag (deleteField fields key.name), rfl, ?_⟩
      rw [Value.data, dataFields_deleteField]
      exact Option.some.inj hremove
    | _ => cases hremove
  | a path' text =>
    cases hop
    obtain ⟨key, hlast, hput⟩ := Option.bind_eq_some_iff.mp h
    obtain ⟨current, hown, hput⟩ := htext key _ hput
    obtain ⟨changed, hchanged, hdata⟩ := defineTrusted_data hput
    refine ⟨changed, ?_, hdata⟩
    simp only [editTrusted, hlast, hown]
    exact hchanged
  | t path' count =>
    cases hop
    obtain ⟨key, hlast, hput⟩ := Option.bind_eq_some_iff.mp h
    obtain ⟨current, hown, hput⟩ := htext key _ hput
    obtain ⟨changed, hchanged, hdata⟩ := defineTrusted_data hput
    refine ⟨changed, ?_, hdata⟩
    simp only [editTrusted, hlast, hown]
    exact hchanged
  | _ => cases hop

theorem isObj_of_at {path : Path} {value node : Value Nat}
    (h : Data.at path value.data = some node.data) (hobj : node.isObj = true) :
    value.isObj = true := by
  cases path with
  | nil => rw [isObj_data (Option.some.inj h), hobj]
  | cons seg path =>
    obtain ⟨child, hchild, -⟩ := Option.bind_eq_some_iff.mp h
    cases value with
    | arr tag items => rfl
    | obj tag fields => rfl
    | _ => cases hchild

theorem copyPathChildren_data {path : Path} {value node : Value Nat} (c : Copies)
    (h : Data.at path value.data = some node.data) (hobj : node.isObj = true) :
    ∃ copied c', copyPathChildren path value c = .ok (copied, c') ∧ copied.data = value.data := by
  induction path generalizing value c with
  | nil => exact ⟨value, c, rfl, rfl⟩
  | cons seg path ih =>
    obtain ⟨x, hx, hrest⟩ := Option.bind_eq_some_iff.mp h
    rw [child_data] at hx
    obtain ⟨child, hown, rfl⟩ := Option.map_eq_some_iff.mp hx
    have hdata := data_own c child
    obtain ⟨copied, c', hcopied, hsame⟩ := ih (c.own child).2 (hdata ▸ hrest)
    refine ⟨value.define seg copied, c', ?_, data_define_own hown (hsame.trans hdata)⟩
    rw [copyPathChildren, hown]
    simp only [isObj_of_at hrest hobj, Bool.true_eq_false, if_false, hcopied]
    rfl

theorem copyPath_data {path : Path} {node : Value Nat} (c : Copies)
    (h : Data.at path root.data = some node.data) (hobj : node.isObj = true) :
    ∃ copied c', copyPath root path c = .ok (copied, c') ∧ copied.data = root.data := by
  have hdata := data_own c root
  obtain ⟨copied, c', hcopied, hsame⟩ := copyPathChildren_data (c.own root).2 (hdata ▸ h) hobj
  refine ⟨copied, c', ?_, hsame.trans hdata⟩
  unfold copyPath
  rw [isObj_of_at h hobj]
  exact hcopied

def Op.trusted {V : Type} : Op V → Bool
  | .p _ _ _ _ => false
  | .m _ _ => false
  | _ => true

/-- **An unchecked operation** does what it means, where it means something. -/
theorem trustedStep_data {op : Op (Value Nat)} (hop : op.trusted = true) (c : Copies)
    (h : root.data.step op.data = some y) :
    ∃ next c', trustedStep (root, c) op = .ok (next, c') ∧ next.data = y := by
  by_cases hr : ∃ value, op = .r value
  · obtain ⟨value, rfl⟩ := hr
    exact ⟨value, c, rfl, Option.some.inj h⟩
  · have hr : ∀ value, op ≠ .r value := not_exists.mp hr
    obtain ⟨path, hpath⟩ : ∃ path, op.property = some path := by
      cases op with
      | r value => exact absurd rfl (hr value)
      | p path index remove items => cases hop
      | m path permutation => cases hop
      | s path value => exact ⟨path, rfl⟩
      | d path => exact ⟨path, rfl⟩
      | a path text => exact ⟨path, rfl⟩
      | t path count => exact ⟨path, rfl⟩
    -- the container is there, and the operation can be done to it
    have halter : Data.alter op.data.edit op.target root.data = some y := by
      unfold Data.step at h
      split at h
      · rw [show op.data.target = op.target from target_map _ op] at h
        exact h
      · cases h
    obtain ⟨x, x', hat, hedit⟩ := Data.at_of_alter halter
    obtain ⟨found, -, rfl⟩ := exists_of_at op.target hat
    have hobj : found.isObj = true := by
      by_contra hprim
      rw [edit_prim_none (by simpa using hprim) hr] at hedit
      cases hedit
    obtain ⟨copied, c', hcopied, hsame⟩ := copyPath_data c hat hobj
    obtain ⟨node, hres, hnode⟩ := exists_of_at op.target (hsame ▸ hat)
    obtain ⟨changed, hchanged, hdata⟩ := editTrusted_data hpath (hnode ▸ hedit)
    have hdone := alter_data hres (hnode ▸ hedit.trans (congrArg some hdata.symm))
    rw [hsame, halter] at hdone
    refine ⟨mutateAt changed op.target copied, c', ?_, (Option.some.inj hdone).symm⟩
    have hstep : trustedStep (root, c) op = (do
        let (copied, c) ← copyPath root op.target c
        let target ← resolve copied op.target
        let changed ← editTrusted op target
        .ok (mutateAt changed op.target copied, c)) := by
      cases op with
      | r value => exact absurd rfl (hr value)
      | _ => rfl
    rw [hstep, hcopied, Except.ok_bind]
    show (resolve copied op.target >>= _) = _
    rw [resolve_ok hres, (isObj_data hnode).trans hobj, if_pos rfl, Except.ok_bind, hchanged]
    rfl

theorem applyImmutableTrusted_data {ops : List (Op (Value Nat))}
    (hops : ∀ op ∈ ops, op.trusted = true) (h : root.data.replay (ops.map Op.data) = some y) :
    outcome (applyImmutableTrusted root ops) = some y := by
  have hfold : ∀ (state : Value Nat × Copies), state.1.data.replay (ops.map Op.data) = some y →
      ∃ next, ops.foldlM trustedStep state = .ok next ∧ next.1.data = y := by
    clear h
    induction ops with
    | nil => exact fun state hy => ⟨state, rfl, Option.some.inj hy⟩
    | cons op ops ih =>
      intro state hy
      obtain ⟨x, hx, hrest⟩ := Option.bind_eq_some_iff.mp hy
      obtain ⟨next, c', hnext, rfl⟩ :=
        trustedStep_data (hops op List.mem_cons_self) state.2 hx
      obtain ⟨last, hlast, hdata⟩ :=
        ih (fun op hop => hops op (List.mem_cons_of_mem _ hop)) (next, c') hrest
      refine ⟨last, ?_, hdata⟩
      rw [List.foldlM_cons, hnext]
      exact hlast
  obtain ⟨last, hlast, hdata⟩ := hfold (root, Copies.start root ops) h
  unfold applyImmutableTrusted
  rw [hlast, ← hdata]
  rfl

/-! ## All appliers -/

mutual

def Value.plain {τ : Type} : Value τ → JsonValue
  | .null => .null
  | .bool b => .bool b
  | .num n => .num n
  | .str text => .str text
  | .arr _ items => .arr () (plainItems items)
  | .obj _ fields => .obj () (plainFields fields)

@[grind =] def plainItems {τ : Type} : List (Value τ) → List JsonValue
  | [] => []
  | item :: items => item.plain :: plainItems items

@[grind =] def plainFields {τ : Type} : List (Text × Value τ) → List (Text × JsonValue)
  | [] => []
  | (key, value) :: fields => (key, value.plain) :: plainFields fields

end

mutual

theorem data_plain {τ : Type} (value : Value τ) : value.plain.data = value.data := by
  cases value with
  | arr tag items => rw [Value.plain, Value.data, Value.data, dataItems_plain items]
  | obj tag fields => rw [Value.plain, Value.data, Value.data, dataFields_plain fields]
  | _ => rfl

theorem dataItems_plain {τ : Type} (items : List (Value τ)) :
    dataItems (plainItems items) = dataItems items := by
  cases items with
  | nil => rfl
  | cons item items => rw [plainItems, dataItems, dataItems, data_plain item, dataItems_plain items]

theorem dataFields_plain {τ : Type} (fields : List (Text × Value τ)) :
    dataFields (plainFields fields) = dataFields fields := by
  cases fields with
  | nil => rfl
  | cons field fields =>
    obtain ⟨key, value⟩ := field
    funext name
    rw [plainFields, dataFields, dataFields, data_plain value, dataFields_plain fields]

end

theorem map_plain_data {τ : Type} (ops : List (Op (Value τ))) :
    (ops.map (Op.map Value.plain)).map Op.data = ops.map Op.data := by
  rw [List.map_map]
  apply List.map_congr_left
  intro op _
  cases op with
  | r value => exact congrArg Op.r (data_plain value)
  | s path value => exact congrArg (Op.s path) (data_plain value)
  | p path index remove items =>
    refine congrArg (Op.p path index remove) ?_
    rw [List.map_map]
    exact List.map_congr_left fun item _ => data_plain item
  | _ => rfl

/-- **All appliers agree**: a replay that copies succeeds exactly when `apply` on a deep copy does, in
one go or batch by batch, and gives the same data; so does the unchecked replay of a batch that
`apply` takes. -/
theorem appliers_agree (root : Value Nat) (batches : List (List (Op (Value Nat)))) :
    outcome (applyImmutableBatches root batches)
        = outcome (apply root.plain (batches.flatten.map (Op.map Value.plain)))
      ∧ outcome (batches.foldlM applyImmutable root)
        = outcome (apply root.plain (batches.flatten.map (Op.map Value.plain)))
      ∧ ∀ ops, (∀ op ∈ ops, op.trusted = true) → ∀ result,
        apply root.plain (ops.map (Op.map Value.plain)) = .ok result →
          outcome (applyImmutableTrusted root ops) = outcome (.ok result) := by
  have hplain : ∀ ops : List (Op (Value Nat)),
      outcome (apply root.plain (ops.map (Op.map Value.plain)))
        = root.data.replay (ops.map Op.data) := by
    intro ops
    rw [apply_data, data_plain, map_plain_data]
  refine ⟨?_, ?_, ?_⟩
  · rw [applyImmutableBatches_data, hplain]
  · rw [foldlM_applyImmutable_data, hplain]
  · intro ops htrusted result hresult
    have hmeans := hplain ops
    rw [hresult] at hmeans
    rw [applyImmutableTrusted_data htrusted hmeans.symm]
    rfl

def textRoot : Value Nat := .obj 0 [([97], .arr 1 [.str [98, 99]])]

def textOps : List (Op (Value Nat)) := [.t [.key [97], .index 0] 1, .a [.key [97], .index 0] [100]]

theorem appliers_agree_text :
    ∃ result, apply textRoot.plain (textOps.map (Op.map Value.plain)) = .ok result
      ∧ outcome (applyImmutableTrusted textRoot textOps) = outcome (.ok result) :=
  ⟨_, rfl, (appliers_agree textRoot []).2.2 textOps (by decide) _ rfl⟩

end ThreeXhaust.Delta
