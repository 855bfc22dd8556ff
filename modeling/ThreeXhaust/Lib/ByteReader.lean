import ThreeXhaust.Lib.Bytes

/-!
# Readers of bytes

A `Reader` takes bytes from the front of what is left of a message, or refuses. `Reads read
bytes a` says that `bytes`, in front of any rest, read as `a` and leave exactly the rest. A
format is then proved field by field: the bytes of a record are the fields' bytes one after the
other, and `Reads.bind` goes past one field.

* `Reads.bind`, `Reads.pure`, `Reads.map` — sequences.
* `reads_take`, `reads_ensure` — raw bytes and conditions.
* `Reads.times` — a number of elements.
-/

abbrev Reader := StateT Bytes Option

namespace Reader

variable {α β : Type}

def refuse : Reader α := fun _ => none

def ensure (c : Prop) [Decidable c] : Reader Unit := if c then pure () else refuse

def take (n : Nat) : Reader Bytes := fun bytes =>
  if n ≤ bytes.length then some (bytes.take n, bytes.drop n) else none

def left : Reader Nat := fun bytes => some (bytes.length, bytes)

def times (read : Reader α) : Nat → Reader (List α)
  | 0 => pure []
  | n + 1 => do
    let a ← read
    let rest ← times read n
    pure (a :: rest)

/-! ## What a reader makes of given bytes -/

def Reads (read : Reader α) (bytes : Bytes) (a : α) : Prop :=
  ∀ rest, read (bytes ++ rest) = some (a, rest)

theorem Reads.bind_run {read : Reader α} {bytes : Bytes} {a : α} (h : Reads read bytes a)
    (k : α → Reader β) (rest : Bytes) : (read >>= k) (bytes ++ rest) = k a rest := by
  show (StateT.bind read k (bytes ++ rest)) = _
  unfold StateT.bind
  rw [h rest]
  rfl

theorem Reads.pure (a : α) : Reads (pure a) [] a := fun _ => rfl

theorem Reads.bind {read : Reader α} {k : α → Reader β} {bytes bytes' : Bytes} {a : α} {b : β}
    (h : Reads read bytes a) (hk : Reads (k a) bytes' b) :
    Reads (read >>= k) (bytes ++ bytes') b := by
  intro rest
  rw [List.append_assoc, h.bind_run, hk rest]

theorem Reads.map {read : Reader α} {bytes : Bytes} {a : α} (h : Reads read bytes a)
    (f : α → β) : Reads (f <$> read) bytes (f a) := by
  intro rest
  rw [map_eq_pure_bind, h.bind_run]
  rfl

theorem Reads.last {read : Reader α} {k : α → Reader β} {bytes : Bytes} {a : α} {b : β}
    (h : Reads read bytes a) (hk : Reads (k a) [] b) : Reads (read >>= k) bytes b := by
  have hall := h.bind hk
  rwa [List.append_nil] at hall

theorem reads_ensure {c : Prop} [Decidable c] (hc : c) : Reads (ensure c) [] () := by
  intro rest
  rw [ensure, if_pos hc]
  rfl

theorem reads_take {n : Nat} (bytes : Bytes) (h : bytes.length = n) :
    Reads (take n) bytes bytes := by
  intro rest
  simp [take, ← h]

theorem Reads.length_pos {read : Reader α} {bytes : Bytes} {a : α} (h : Reads read bytes a)
    (hempty : read [] = none) : 0 < bytes.length := by
  cases bytes with
  | nil =>
    have hrun := h []
    rw [List.append_nil, hempty] at hrun
    cases hrun
  | cons b rest => exact Nat.succ_pos _

theorem Reads.times {γ : Type} {read : Reader β} {write : γ → Bytes} {value : γ → β}
    (xs : List γ) (h : ∀ x ∈ xs, Reads read (write x) (value x)) :
    Reads (times read xs.length) (xs.flatMap write) (xs.map value) := by
  induction xs with
  | nil => exact Reads.pure []
  | cons x xs ih =>
    have htail := ih fun y hy => h y (List.mem_cons_of_mem x hy)
    exact (h x List.mem_cons_self).bind (htail.last (Reads.pure _))

end Reader
