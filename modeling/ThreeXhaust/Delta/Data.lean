import ThreeXhaust.Delta.Op
import Mathlib.Logic.Function.Basic

/-!
# What operations mean

`Data` is a value without what its consumers may not rely on: the identity of its containers and
the order of its keys. Two values are deeply equal when they are the same data. An operation names a
container by a path and changes it (`Op.edit`); `Data.replay` says what a batch means, whichever
applier runs it. `Hole` is a place in a value, with all that is around it.

* **`Hole.comp`** — a place in a place.
* **`Turns`** — a batch that turns one value into another, wherever it stands.
-/

namespace ThreeXhaust.Delta

open Utf16

inductive Data where
  | null
  | bool (b : Bool)
  | num (n : Json.Decimal)
  | str (s : Text)
  | arr (items : List Data)
  | obj (field : Text → Option Data)

/-- The name a segment has as a key: a number is turned into its text. -/
def Seg.name : Seg → Text
  | .key name => name
  | .index n => units (String.ofList (Json.Decimal.ofNat n).text)

/-- `splice`, with the start and the count cut to the array. -/
def splice {α : Type} (items : List α) (start remove : Nat) (inserted : List α) : List α :=
  items.take start ++ inserted ++ items.drop (start + remove)

namespace Data

def child : Data → Seg → Option Data
  | .arr items, .index i => items[i]?
  | .obj field, seg => field seg.name
  | _, _ => none

/-- Write a property. An element may be written where the array ends, not behind. -/
def put : Data → Seg → Data → Option Data
  | .arr items, .index i, v =>
    if i < items.length then some (.arr (items.set i v))
    else if i = items.length then some (.arr (items ++ [v]))
    else none
  | .obj field, seg, v => some (.obj (Function.update field seg.name (some v)))
  | _, _, _ => none

def remove : Data → Seg → Option Data
  | .arr items, .index i => if i < items.length then some (.arr (items.eraseIdx i)) else none
  | .obj field, seg => some (.obj (Function.update field seg.name none))
  | _, _ => none

@[grind =] def alter (f : Data → Option Data) : Path → Data → Option Data
  | [], x => f x
  | seg :: path, x => do
    let c ← x.child seg
    let c' ← alter f path c
    x.put seg c'

end Data

/-! ## Operations -/

def Op.target {V : Type} : Op V → Path
  | .r _ => []
  | .s path _ => path.dropLast
  | .d path => path.dropLast
  | .a path _ => path.dropLast
  | .t path _ => path.dropLast
  | .p path _ _ _ => path
  | .m path _ => path

def Data.putText (x : Data) (seg : Seg) (f : Text → Text) : Option Data :=
  match x.child seg with
  | some (.str text) => x.put seg (.str (f text))
  | _ => none

def Op.edit : Op Data → Data → Option Data
  | .r value, _ => some value
  | .s path value, x => path.getLast?.bind fun seg => x.put seg value
  | .d path, x => path.getLast?.bind x.remove
  | .a path text, x => path.getLast?.bind fun seg => x.putText seg (· ++ text)
  | .t path count, x => path.getLast?.bind fun seg => x.putText seg (·.drop count)
  | .p _ index remove items, .arr xs => some (.arr (splice xs index remove items))
  | .m _ permutation, .arr xs =>
    if xs.length = permutation.length then (permutation.mapM fun i => xs[i]?).map .arr else none
  | _, _ => none

/-- One operation; one that is not valid is refused. -/
def Data.step (x : Data) (op : Op Data) : Option Data :=
  match assertValidOp op with
  | .ok _ => Data.alter op.edit op.target x
  | .error _ => none

def Data.replay (x : Data) (ops : List (Op Data)) : Option Data := ops.foldlM Data.step x

theorem Data.step_of_valid {x : Data} {op : Op Data} (h : assertValidOp op = .ok ()) :
    x.step op = Data.alter op.edit op.target x := by
  unfold Data.step
  rw [h]

@[simp] theorem Data.replay_cons (x : Data) (op : Op Data) (ops : List (Op Data)) :
    x.replay (op :: ops) = (x.step op).bind (·.replay ops) := rfl

theorem Data.replay_append (x : Data) (ops ops' : List (Op Data)) :
    x.replay (ops ++ ops') = (x.replay ops).bind (·.replay ops') := by
  rw [Data.replay, List.foldlM_append]
  rfl

/-! ## Places -/

@[grind =] def Data.at : Path → Data → Option Data
  | [], x => some x
  | seg :: path, x => (x.child seg).bind (Data.at path)

theorem Data.at_append (path rest : Path) (x : Data) :
    Data.at (path ++ rest) x = (Data.at path x).bind (Data.at rest) := by
  induction path generalizing x with
  | nil => rfl
  | cons seg path ih =>
    simp only [List.cons_append, Data.at]
    cases x.child seg with
    | none => rfl
    | some c => exact ih c

theorem Data.put_child {x c : Data} {seg : Seg} (h : x.child seg = some c) : x.put seg c = some x := by
  cases x with
  | arr items =>
    cases seg with
    | key name => cases h
    | index i =>
      obtain ⟨hi, hc⟩ := List.getElem?_eq_some_iff.mp h
      simp only [Data.put, if_pos hi, ← hc, List.set_getElem_self]
  | obj field =>
    simp only [Data.put, ← show field seg.name = some c from h, Function.update_eq_self]
  | _ => cases h

theorem Data.alter_append (f : Data → Option Data) (path rest : Path) (x : Data) :
    Data.alter f (path ++ rest) x = Data.alter (Data.alter f rest) path x := by
  induction path generalizing x with
  | nil => rfl
  | cons seg path ih =>
    simp only [List.cons_append, Data.alter, ih]

theorem Data.at_of_alter {f : Data → Option Data} {path : Path} {x y : Data}
    (h : Data.alter f path x = some y) : ∃ z z', Data.at path x = some z ∧ f z = some z' := by
  induction path generalizing x y with
  | nil => exact ⟨x, y, rfl, h⟩
  | cons seg path ih =>
    obtain ⟨c, hc, hrest⟩ := Option.bind_eq_some_iff.mp h
    obtain ⟨c', hc', -⟩ := Option.bind_eq_some_iff.mp hrest
    obtain ⟨z, z', hz, hf⟩ := ih hc'
    refine ⟨z, z', ?_, hf⟩
    rw [Data.at, hc]
    exact hz

theorem Data.alter_congr {f g : Data → Option Data} {path : Path} {x : Data}
    (h : ∀ z, Data.at path x = some z → f z = g z) : Data.alter f path x = Data.alter g path x := by
  induction path generalizing x with
  | nil => exact h x rfl
  | cons seg path ih =>
    rw [Data.alter, Data.alter]
    cases hchild : x.child seg with
    | none => rfl
    | some c =>
      have hc : Data.alter f path c = Data.alter g path c := by
        apply ih
        intro z hz
        apply h
        rw [Data.at, hchild, Option.bind_some, hz]
      simp only [Option.bind_eq_bind, Option.bind_some, hc]

/-! ## Paths that fit -/

/-- Keys name the properties of objects, numbers the elements of arrays. -/
def Data.Fits : Data → Seg → Prop
  | .arr _, .index _ => True
  | .obj _, .key _ => True
  | _, _ => False

@[grind =] def Data.Typed : Data → Path → Prop
  | _, [] => True
  | x, seg :: path => x.Fits seg ∧ ∀ c, x.child seg = some c → c.Typed path

def Op.path {V : Type} : Op V → Path
  | .r _ => []
  | .s path _ => path
  | .d path => path
  | .a path _ => path
  | .t path _ => path
  | .p path _ _ _ => path
  | .m path _ => path

/-- The batch takes `x` to `y`, by operations whose paths fit where they are applied. -/
@[grind =] def Data.Exact : Data → List (Op Data) → Data → Prop
  | x, [], y => x = y
  | x, op :: ops, y => x.Typed op.path ∧ ∃ z, x.step op = some z ∧ z.Exact ops y

theorem Data.Exact.append {ops ops' : List (Op Data)} {x y z : Data} (h : x.Exact ops y)
    (h' : y.Exact ops' z) : x.Exact (ops ++ ops') z := by
  induction ops generalizing x with
  | nil =>
    cases h
    exact h'
  | cons op ops ih =>
    obtain ⟨htyped, w, hstep, hrest⟩ := h
    exact ⟨htyped, w, hstep, ih hrest⟩

theorem Data.Exact.replay {ops : List (Op Data)} {x y : Data} (h : x.Exact ops y) :
    x.replay ops = some y := by
  induction ops generalizing x with
  | nil => exact congrArg some h
  | cons op ops ih =>
    obtain ⟨-, z, hstep, hrest⟩ := h
    rw [Data.replay_cons, hstep, Option.bind_some, ih hrest]

/-! ## Places in a value -/

/-- `around z` is a value with `z` where the path leads. -/
structure Hole (path : Path) (around : Data → Data) : Prop where
  alter : ∀ f z, Data.alter f path (around z) = (f z).map around
  typed : ∀ z rest, z.Typed rest → (around z).Typed (path ++ rest)

theorem Hole.nil : Hole [] id := by
  constructor
  · intro f z
    show f z = (f z).map id
    rw [Option.map_id, id]
  · exact fun z rest htyped => htyped

theorem Hole.comp {path rest : Path} {around inner : Data → Data} (h : Hole path around)
    (h' : Hole rest inner) : Hole (path ++ rest) (around ∘ inner) := by
  constructor
  · intro f z
    rw [Data.alter_append, Function.comp_apply, h.alter, h'.alter, Option.map_map]
  · intro z tail htyped
    rw [List.append_assoc]
    exact h.typed _ _ (h'.typed z tail htyped)

theorem Hole.at_path {path : Path} {around : Data → Data} (h : Hole path around) (z : Data) :
    Data.at path (around z) = some z := by
  classical
  have hsome : Data.alter (fun y => if y = z then some y else none) path (around z)
      = some (around z) := by
    rw [h.alter, if_pos rfl, Option.map_some]
  obtain ⟨y, y', hy, hf⟩ := Data.at_of_alter hsome
  split at hf
  · next heq => rw [hy, heq]
  · cases hf

theorem hole_of_child {seg : Seg} {around : Data → Data}
    (hchild : ∀ z, (around z).child seg = some z)
    (hput : ∀ z y, (around z).put seg y = some (around y))
    (hfits : ∀ z, (around z).Fits seg) : Hole [seg] around := by
  constructor
  · intro f z
    simp only [Data.alter, hchild, Option.bind_eq_bind, Option.bind_some, hput]
    cases f z with
    | none => rfl
    | some y => rfl
  · intro z rest htyped
    refine ⟨hfits z, fun c hc => ?_⟩
    rw [hchild] at hc
    exact Option.some.inj hc ▸ htyped

theorem hole_index (front back : List Data) :
    Hole [.index front.length] fun z => .arr (front ++ z :: back) := by
  apply hole_of_child
  · intro z
    simp [Data.child]
  · intro z y
    simp [Data.put]
  · exact fun _ => trivial

theorem hole_key (field : Text → Option Data) (name : Text) :
    Hole [.key name] fun z => .obj (Function.update field name (some z)) := by
  apply hole_of_child
  · intro z
    simp [Data.child, Seg.name]
  · intro z y
    simp [Data.put, Seg.name]
  · exact fun _ => trivial

/-! ## Batches that turn one value into another -/

/-- The batch turns `x` into `y` wherever the path leads to `x`. -/
def Turns (ops : List (Op Data)) (path : Path) (x y : Data) : Prop :=
  ∀ around, Hole path around → (around x).Exact ops (around y)

section Turns

variable {ops ops' : List (Op Data)} {path : Path} {x y z : Data}

theorem Turns.nil (path : Path) (x : Data) : Turns [] path x x := fun _ _ => rfl

theorem Turns.append (h : Turns ops path x y) (h' : Turns ops' path y z) :
    Turns (ops ++ ops') path x z :=
  fun around hole => (h around hole).append (h' around hole)

theorem Turns.single {op : Op Data} {rest : Path} (hvalid : assertValidOp op = .ok ())
    (htarget : op.target = path) (hpath : op.path = path ++ rest) (htyped : x.Typed rest)
    (hedit : op.edit x = some y) : Turns [op] path x y := by
  intro around hole
  refine ⟨hpath ▸ hole.typed x rest htyped, around y, ?_, rfl⟩
  rw [Data.step_of_valid hvalid, htarget, hole.alter, hedit]
  rfl

theorem Turns.leaf {op : Op Data} {seg : Seg} (hvalid : assertValidOp op = .ok ())
    (htarget : op.target = path) (hpath : op.path = path ++ [seg])
    (hedit : ∀ w : Data, w.child seg = some x → op.edit w = w.put seg y) :
    Turns [op] (path ++ [seg]) x y := by
  intro around hole
  have hat := hole.at_path x
  rw [Data.at_append] at hat
  obtain ⟨w, hw, hchild⟩ := Option.bind_eq_some_iff.mp hat
  have hput : Data.alter (fun _ => some y) (path ++ [seg]) (around x) = some (around y) :=
    hole.alter _ x
  refine ⟨?_, around y, ?_, rfl⟩
  · have htyped := hole.typed x [] trivial
    rw [List.append_nil] at htyped
    exact hpath ▸ htyped
  · rw [Data.step_of_valid hvalid, htarget, ← hput, Data.alter_append]
    apply Data.alter_congr
    intro v hv
    rw [hw] at hv
    cases hv
    obtain ⟨c, hc, hcx⟩ := Option.bind_eq_some_iff.mp hchild
    cases hcx
    rw [hedit w hc]
    simp only [Data.alter, hc, Option.bind_eq_bind, Option.bind_some]

theorem Turns.inside {rest : Path} {inner : Data → Data} (h : Turns ops (path ++ rest) x y)
    (hinner : Hole rest inner) : Turns ops path (inner x) (inner y) :=
  fun around hole => h (around ∘ inner) (hole.comp hinner)

theorem Turns.exact (h : Turns ops [] x y) : x.Exact ops y := h id Hole.nil

end Turns

end ThreeXhaust.Delta
