import Mathlib.Data.List.Basic
import Mathlib.Data.List.Nodup

/-!
# The list behind a job's `running`

`Running` keeps the entries of the unsettled runs in start order. An entry is found by the identity
of its JSON object (`indexOf`), here a number of its own (`tag`). An entry that is not in the list has
index -1, which `with` and `toSpliced` count from the end, as JavaScript does: they then change the
entry of another run.
-/

namespace ThreeXhaust.Chord.Jobs

inductive Phase where
  | pending | running | stopped | finishing | blocked
  deriving DecidableEq, Repr

inductive BlockedReason where
  | finishFailed | version
  deriving DecidableEq, Repr

inductive Shown (J : Type) where
  | blocked (reason : Option BlockedReason)
  | active (key : Option String) (args : J) (state : Option J) (finishing : Bool)

structure Entry (J : Type) where
  /-- The identity of the JSON object. -/
  tag : Nat
  id : Nat
  version : Nat
  shown : Shown J

namespace Running

variable {J : Type} {list : List (Entry J)} {e after : Entry J}

/-- `list.indexOf(entry)`; -1 for an entry not there, `undefined` included. -/
def indexOf (list : List (Entry J)) : Option (Entry J) → Int
  | none => -1
  | some e =>
    match list.findIdx? fun x => x.tag == e.tag with
    | some i => i
    | none => -1

/-- `list.with(index, after)`; `none` is its `RangeError`. -/
def withAt (list : List (Entry J)) (index : Int) (after : Entry J) : Option (List (Entry J)) :=
  let place := if index < 0 then index + list.length else index
  if 0 ≤ place ∧ place < list.length then some (list.set place.toNat after) else none

def spliced (list : List (Entry J)) (index : Int) : List (Entry J) :=
  list.eraseIdx (if index < 0 then (index + list.length).toNat else index.toNat)

def add (list : List (Entry J)) (entry : Entry J) : List (Entry J) :=
  list ++ [entry]

def replace (list : List (Entry J)) (before : Option (Entry J)) (after : Entry J) :
    Option (List (Entry J)) :=
  withAt list (indexOf list before) after

def remove (list : List (Entry J)) (entry : Option (Entry J)) : List (Entry J) :=
  spliced list (indexOf list entry)

/-! ## Entries that are there

With tags that do not repeat, the list is changed at the entry's own place. -/

theorem findIdx?_tag (hnodup : (list.map (·.tag)).Nodup) {i : Nat} (hi : list[i]? = some e) :
    list.findIdx? (fun x => x.tag == e.tag) = some i := by
  obtain ⟨hlt, rfl⟩ := List.getElem?_eq_some_iff.mp hi
  rw [List.findIdx?_eq_some_iff_getElem]
  refine ⟨hlt, by simp, fun j hj => ?_⟩
  simp only [beq_iff_eq]
  intro htag
  -- entries with one tag are one entry, in one place
  have heq : list[j] = list[i] :=
    List.inj_on_of_nodup_map hnodup (List.getElem_mem _) (List.getElem_mem _) htag
  have := (List.Nodup.of_map _ hnodup).getElem_inj_iff.mp heq
  omega

theorem replace_mem (hnodup : (list.map (·.tag)).Nodup) {i : Nat} (hi : list[i]? = some e) :
    replace list (some e) after = some (list.set i after) := by
  have hlt : i < list.length := (List.getElem?_eq_some_iff.mp hi).1
  have hidx : indexOf list (some e) = (i : Int) := by
    rw [indexOf, findIdx?_tag hnodup hi]
  rw [replace, hidx, withAt, if_neg (by omega : ¬ ((i : Int) < 0)), if_pos (by omega), Int.toNat_natCast]

theorem remove_mem (hnodup : (list.map (·.tag)).Nodup) {i : Nat} (hi : list[i]? = some e) :
    remove list (some e) = list.eraseIdx i := by
  have hidx : indexOf list (some e) = (i : Int) := by
    rw [indexOf, findIdx?_tag hnodup hi]
  rw [remove, hidx, spliced, if_neg (by omega), Int.toNat_natCast]

end Running

end ThreeXhaust.Chord.Jobs
