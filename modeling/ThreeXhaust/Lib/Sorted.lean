import Mathlib.Data.List.Basic
import Mathlib.Order.Basic

/-!
# Sorted lists and binary search

A binary search finds where a list changes from elements that satisfy `p` to elements that do
not, and a list of numbers is kept in ascending order by it.
-/

namespace Sorted

variable {α : Type}

/-- The rounds of the search between `low` and `high`; every round at least halves what is left. -/
def bisectLoop (p : α → Bool) (xs : List α) : Nat → Nat → Nat → Nat
  | 0, low, _ => low
  | rounds + 1, low, high =>
    if low < high then
      match xs[(low + high) / 2]? with
      | some x =>
        if p x then bisectLoop p xs rounds ((low + high) / 2 + 1) high
        else bisectLoop p xs rounds low ((low + high) / 2)
      | none => low
    else low

def bisect (p : α → Bool) (xs : List α) : Nat := bisectLoop p xs xs.length 0 xs.length

/-! ## Lists of numbers in ascending order -/

def lowerBound (ids : List Nat) (target : Int) : Nat :=
  bisect (fun id : Nat => decide ((id : Int) < target)) ids

def upperBound (ids : List Nat) (target : Int) : Nat :=
  bisect (fun id : Nat => decide ((id : Int) ≤ target)) ids

def insertSorted (ids : List Nat) (id : Nat) : List Nat :=
  match ids.getLast? with
  | none => [id]
  | some last =>
    if last < id then ids ++ [id]
    else ids.take (lowerBound ids id) ++ id :: ids.drop (lowerBound ids id)

def removeSorted (ids : List Nat) (id : Nat) : List Nat :=
  if ids[lowerBound ids id]? = some id then ids.eraseIdx (lowerBound ids id) else ids

end Sorted
