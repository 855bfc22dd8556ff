import ThreeXhaust.Delta.Codec
import ThreeXhaust.Delta.DiffReplay
import ThreeXhaust.Lib.Run

/-!
# The pending operations of a slow consumer

`chord/src/delta/pending.ts`: the batches a consumer has not taken yet. One batch is kept as it was
received; more are folded into one list, in which a leaf operation joins the last one on its path.
The index of these is emptied by every operation that may change what a path names. Past a bound
only a replacement with the current revision stays pending.
-/

namespace ThreeXhaust.Delta

open Utf16

section Pending

variable {τ : Type}

/-! ## The queue -/

def maxPendingOps : Nat := 10000

/-- The operations that wait, and for each path the position of the last leaf operation on it. -/
structure Folding (τ : Type) where
  ops : List (Op (Value τ))
  leaves : Text → Option Nat

inductive PendingOps (τ : Type) where
  | empty
  | batch (ops : List (Op (Value τ)))
  | folding (folded : Folding τ)
  | replace

inductive PendingTake (τ : Type) where
  | ops (ops : List (Op (Value τ)))
  | replace

/-- `next` folded into `previous`, on the same path. -/
def merge (previous next : Op (Value τ)) : Option (Op (Value τ)) :=
  match previous, next with
  | _, .s path value => some (.s path value)
  | .a path text, .a _ text' => some (.a path (text ++ text'))
  -- only the set of a string takes an append
  | .s path (.str text), .a _ text' => some (.s path (.str (text ++ text')))
  | _, _ => none

/-- Merge a leaf operation, or index it where it is about to be pushed. True when merged. -/
def mergeLeaf (op : Op (Value τ)) (path : Path) (folded : Folding τ) : Folding τ × Bool :=
  match (folded.leaves (pathKey path)).bind fun place =>
      (folded.ops[place]?).bind fun previous => (merge previous op).map fun merged => (place, merged)
    with
  | some (place, merged) => ({ folded with ops := folded.ops.set place merged }, true)
  | none =>
    ({ folded with leaves := Function.update folded.leaves (pathKey path) (some folded.ops.length) },
      false)

/-- What comes before the push of an operation; true when there is nothing to push. -/
def beforePush (op : Op (Value τ)) (folded : Folding τ) : Folding τ × Bool :=
  match op with
  | .r _ => (⟨[], fun _ => none⟩, false)
  | .a path _ => mergeLeaf op path folded
  | .s path value =>
    if value.isObj = false then mergeLeaf op path folded
    else ({ folded with leaves := fun _ => none }, false)
  | _ => ({ folded with leaves := fun _ => none }, false)

/-- `#fold`; nothing once the queue overflowed. -/
def foldOps : List (Op (Value τ)) → Folding τ → Option (Folding τ)
  | [], folded => some folded
  | op :: ops, folded =>
    match beforePush op folded with
    | (folded, true) => foldOps ops folded
    | (folded, false) =>
      if (folded.ops ++ [op]).length > maxPendingOps then none
      else foldOps ops { folded with ops := folded.ops ++ [op] }

def PendingOps.ofFold : Option (Folding τ) → PendingOps τ
  | some folded => .folding folded
  | none => .replace

def PendingOps.push (state : PendingOps τ) (ops : List (Op (Value τ))) : PendingOps τ :=
  match ops with
  | [] => state
  | .r value :: rest => .batch (.r value :: rest)
  | ops =>
    match state with
    | .empty => .batch ops
    | .batch first => .ofFold ((foldOps first ⟨[], fun _ => none⟩).bind (foldOps ops))
    | .folding folded => .ofFold (foldOps ops folded)
    | .replace => .replace

/-- Hand over everything that is pending and start empty. -/
def PendingOps.take : PendingOps τ → PendingTake τ × PendingOps τ
  | .empty => (.ops [], .empty)
  | .batch ops => (.ops ops, .empty)
  | .folding folded => (.ops folded.ops, .empty)
  | .replace => (.replace, .empty)

/-! ## A consumer -/

/-- A queue with its consumer; `current` is the revision of the last batch that was pushed. -/
structure Consumer (τ : Type) where
  pending : PendingOps τ
  current : Value τ
  replica : Result (Value τ)

inductive ConsumerInput (τ : Type) where
  | push (ops : List (Op (Value τ))) (revision : Value τ)
  | take

def Consumer.init (revision : Value τ) : Consumer τ := ⟨.empty, revision, .ok revision⟩

/-- A function that replays a batch. -/
abbrev Applier (τ : Type) := Value τ → List (Op (Value τ)) → Result (Value τ)

def Consumer.step (applier : Applier τ) (c : Consumer τ) : ConsumerInput τ → Consumer τ
  | .push ops revision => { c with pending := c.pending.push ops, current := revision }
  | .take =>
    match c.pending.take with
    | (.ops ops, pending) => { c with pending, replica := c.replica >>= fun r => applier r ops }
    | (.replace, pending) => { c with pending, replica := .ok c.current }

/-! ## Folding -/

/-- The index points at the last leaf operation on each path it has; behind it are only leaf
operations on other paths. -/
def Indexed (folded : Folding τ) : Prop :=
  ∀ path place, folded.leaves (pathKey path) = some place →
    ∃ front op back, folded.ops = front ++ op :: back ∧ front.length = place
      ∧ LeafOn path op.data ∧ LeavesBeside path (back.map Op.data)

theorem isLeaf_data (value : Value τ) : value.data.isLeaf = !value.isObj := by
  cases value <;> rfl

theorem merge_merges {previous op merged : Op (Value τ)} {path : Path}
    (hprevious : LeafOn path previous.data) (hop : LeafOn path op.data)
    (hvalid : assertValidOp op.data = .ok ()) (h : merge previous op = some merged) :
    Merges path previous.data op.data merged.data := by
  unfold merge at h
  split at h
  · -- a set replaces what was there
    cases h
    exact ⟨hop, hvalid, fun _ _ _ _ hset => hset⟩
  · next other text other' text' =>
    cases h
    obtain rfl : other = path := hprevious
    obtain rfl : other' = other := hop
    refine ⟨rfl, hvalid, ?_⟩
    intro old w w' hw hw'
    cases old with
    | none => cases hw
    | some x =>
      cases x with
      | str start =>
        cases hw
        cases hw'
        show some (Data.str (start ++ (text ++ text'))) = some (.str (start ++ text ++ text'))
        rw [List.append_assoc]
      | _ => cases hw
  · next other text other' text' =>
    cases h
    obtain ⟨rfl, -⟩ : other = path ∧ _ := hprevious
    obtain rfl : other' = other := hop
    refine ⟨⟨rfl, rfl⟩, hvalid, ?_⟩
    intro old w w' hw hw'
    cases hw
    exact hw'
  · cases h

variable {folded : Folding τ}

theorem Indexed.split (h : Indexed folded) {path : Path} {place : Nat}
    (hplace : folded.leaves (pathKey path) = some place) :
    ∃ front op back, folded.ops = front ++ op :: back ∧ folded.ops[place]? = some op
      ∧ (∀ other, folded.ops.set place other = front ++ other :: back)
      ∧ LeafOn path op.data ∧ LeavesBeside path (back.map Op.data) := by
  obtain ⟨front, op, back, hops, rfl, hleaf, hbeside⟩ := h path place hplace
  refine ⟨front, op, back, hops, ?_, ?_, hleaf, hbeside⟩
  · rw [hops]
    simp
  · intro other
    rw [hops]
    simp

variable {x z : Data}

theorem exact_append {ops ops' : List (Op Data)} (h : x.Exact (ops ++ ops') z) :
    ∃ y, x.Exact ops y ∧ y.Exact ops' z := by
  induction ops generalizing x with
  | nil => exact ⟨x, rfl, h⟩
  | cons op ops ih =>
    obtain ⟨htyped, w, hstep, hrest⟩ := h
    obtain ⟨y, hy, hz⟩ := ih hrest
    exact ⟨y, ⟨htyped, w, hstep, hy⟩, hz⟩

structure Folds (folded : Folding τ) (x y : Data) : Prop where
  exact : x.Exact (folded.ops.map Op.data) y
  indexed : Indexed folded

variable {y : Data}

theorem Folds.push_structural {op : Op (Value τ)} (h : Folds folded x y)
    (htyped : y.Typed op.data.path) (hstep : y.step op.data = some z) :
    Folds ⟨folded.ops ++ [op], fun _ => none⟩ x z := by
  constructor
  · rw [List.map_append]
    exact h.exact.append ⟨htyped, z, hstep, rfl⟩
  · exact nofun

theorem Folds.push_leaf {op : Op (Value τ)} {path : Path} (h : Folds folded x y)
    (hop : LeafOn path op.data) (htyped : y.Typed op.data.path) (hstep : y.step op.data = some z) :
    Folds ⟨folded.ops ++ [op],
      Function.update folded.leaves (pathKey path) (some folded.ops.length)⟩ x z := by
  constructor
  · rw [List.map_append]
    exact h.exact.append ⟨htyped, z, hstep, rfl⟩
  · intro other place hplace
    by_cases hsame : pathKey other = pathKey path
    · obtain rfl := pathKey_inj hsame
      have hplace : Function.update folded.leaves (pathKey other) (some folded.ops.length)
          (pathKey other) = some place := hplace
      rw [Function.update_self] at hplace
      cases hplace
      exact ⟨folded.ops, op, [], rfl, rfl, hop, nofun⟩
    · have hplace : Function.update folded.leaves (pathKey path) (some folded.ops.length)
          (pathKey other) = some place := hplace
      rw [Function.update_of_ne hsame] at hplace
      obtain ⟨front, first, back, hops, hlength, hleaf, hbeside⟩ := h.indexed other place hplace
      refine ⟨front, first, back ++ [op], ?_, hlength, hleaf, ?_⟩
      · show folded.ops ++ [op] = _
        rw [hops, List.append_assoc]
        rfl
      · intro data hdata
        rw [List.map_append] at hdata
        rcases List.mem_append.mp hdata with hdata | hdata
        · exact hbeside data hdata
        · rw [List.map_singleton, List.mem_singleton] at hdata
          refine ⟨path, fun heq => hsame (congrArg pathKey heq.symm), hdata ▸ hop⟩

theorem Indexed.set (h : Indexed folded) {path : Path} {place : Nat} {op merged : Op (Value τ)}
    (hop : folded.ops[place]? = some op) (hleaf : LeafOn path op.data)
    (hmerged : LeafOn path merged.data) :
    Indexed { folded with ops := folded.ops.set place merged } := by
  intro other place' hplace'
  obtain ⟨front, first, back, hops, rfl, hfirst, hbeside⟩ := h other place' hplace'
  rw [hops] at hop
  rcases Nat.lt_trichotomy place front.length with hlt | rfl | hgt
  · -- before the operation the index points at
    refine ⟨front.set place merged, first, back, ?_, by simp, hfirst, hbeside⟩
    show folded.ops.set place merged = _
    rw [hops, List.set_append_left _ _ hlt]
  · refine ⟨front, merged, back, ?_, rfl, ?_, hbeside⟩
    · show folded.ops.set front.length merged = _
      rw [hops]
      simp
    · -- it is that operation, so its path is the path
      have hsame : first = op := by simpa using hop
      subst hsame
      rw [← hfirst.path, hleaf.path]
      exact hmerged
  · -- behind it
    obtain ⟨i, hi⟩ : ∃ i, place = front.length + (i + 1) := ⟨place - front.length - 1, by omega⟩
    subst hi
    have hback : back[i]? = some op := by
      rw [List.getElem?_append_right (by omega), Nat.add_sub_cancel_left] at hop
      exact hop
    refine ⟨front, first, back.set i merged, ?_, rfl, hfirst, ?_⟩
    · show folded.ops.set _ merged = _
      rw [hops]
      simp
    · intro data hdata
      rw [List.map_set] at hdata
      rcases List.mem_or_eq_of_mem_set hdata with hmem | rfl
      · exact hbeside data hmem
      · obtain ⟨path', hne, hop'⟩ := hbeside op.data
          (List.mem_map_of_mem (List.mem_of_getElem? hback))
        rw [← hleaf.path, hop'.path] at hmerged
        exact ⟨path', hne, hmerged⟩

/-- The list once an operation was folded in, before the bound is looked at. -/
def afterPush (op : Op (Value τ)) : Folding τ × Bool → Folding τ
  | (folded, true) => folded
  | (folded, false) => { folded with ops := folded.ops ++ [op] }

theorem mergeLeaf_kept {op : Op (Value τ)} {path : Path} (h : Folds folded x y)
    (hop : LeafOn path op.data) (htyped : y.Typed op.data.path) (hstep : y.step op.data = some z)
    : Folds (afterPush op (mergeLeaf op path folded)) x z := by
  unfold mergeLeaf
  split
  · next place merged hmerge =>
    obtain ⟨place', hplace, hrest⟩ := Option.bind_eq_some_iff.mp hmerge
    obtain ⟨previous, hprevious, hmap⟩ := Option.bind_eq_some_iff.mp hrest
    obtain ⟨merged', hmerged, hpair⟩ := Option.map_eq_some_iff.mp hmap
    cases hpair
    obtain ⟨front, first, back, hops, hfirst, hset, hleaf, hbeside⟩ := h.indexed.split hplace
    rw [hfirst] at hprevious
    cases hprevious
    have hmerges := merge_merges hleaf hop (valid_of_step hstep) hmerged
    constructor
    · -- the operation moves back to the one it joins
      show x.Exact ((folded.ops.set place merged).map Op.data) z
      have hexact := h.exact
      rw [hops, List.map_append] at hexact
      obtain ⟨w, hfront, hback⟩ := exact_append hexact
      rw [hset, List.map_append]
      exact hfront.append (exact_merge hmerges hleaf hop hbeside hback hstep)
    · exact h.indexed.set hfirst hleaf hmerges.leaf
  · exact h.push_leaf hop htyped hstep

/-- **Folding an operation in** does what the operation does. -/
theorem foldOp_kept {op : Op (Value τ)} (h : Folds folded x y) (htyped : y.Typed op.data.path)
    (hstep : y.step op.data = some z) : Folds (afterPush op (beforePush op folded)) x z := by
  cases op with
  | r value =>
    -- what was pending before a replacement is dropped
    cases hstep
    exact ⟨⟨trivial, value.data, rfl, rfl⟩, nofun⟩
  | a path text => exact mergeLeaf_kept h rfl htyped hstep
  | s path value =>
    rw [beforePush]
    split
    · next hobj =>
      have hleaf : LeafOn path (Op.s path value).data := by
        refine ⟨rfl, ?_⟩
        rw [isLeaf_data, hobj]
        rfl
      exact mergeLeaf_kept h hleaf htyped hstep
    · exact h.push_structural htyped hstep
  | d path => exact h.push_structural htyped hstep
  | t path count => exact h.push_structural htyped hstep
  | p path index remove items => exact h.push_structural htyped hstep
  | m path permutation => exact h.push_structural htyped hstep

theorem foldOps_kept {ops : List (Op (Value τ))} {next : Folding τ} (h : Folds folded x y)
    (hexact : y.Exact (ops.map Op.data) z) (hfold : foldOps ops folded = some next)
    : Folds next x z := by
  induction ops generalizing folded y with
  | nil =>
    cases hfold
    cases hexact
    exact h
  | cons op ops ih =>
    obtain ⟨htyped, w, hstep, hrest⟩ := hexact
    have hop := foldOp_kept h htyped hstep
    rw [foldOps] at hfold
    split at hfold
    · next folded' hbefore =>
      rw [hbefore] at hop
      exact ih hop hrest hfold
    · next folded' hbefore =>
      rw [hbefore] at hop
      split at hfold
      · cases hfold
      · exact ih hop hrest hfold

/-! ## The queue as a whole -/

/-- What is pending takes `x` to `y`. -/
def Pends (x y : Data) : PendingOps τ → Prop
  | .empty => x = y
  | .batch ops => x.Exact (ops.map Op.data) y
  | .folding folded => Folds folded x y
  | .replace => True

theorem pends_ofFold {folded : Option (Folding τ)} (h : ∀ next, folded = some next → Folds next x y)
    : Pends x y (PendingOps.ofFold folded) := by
  cases folded with
  | none => trivial
  | some next => exact h next rfl

/-- **A batch that is pushed** takes what is pending on to the next revision. -/
theorem push_kept {state : PendingOps τ} {ops : List (Op (Value τ))} (h : Pends x y state)
    (hexact : y.Exact (ops.map Op.data) z) : Pends x z (state.push ops) := by
  unfold PendingOps.push
  split
  · cases hexact
    exact h
  · next value rest =>
    -- a replacement does not look at what it replaces
    obtain ⟨-, w, hstep, hrest⟩ := hexact
    cases hstep
    exact ⟨trivial, value.data, rfl, hrest⟩
  · split
    · cases h
      exact hexact
    · next first =>
      apply pends_ofFold
      intro next hfold
      obtain ⟨folded, hfirst, hops⟩ := Option.bind_eq_some_iff.mp hfold
      have hempty : Folds (⟨[], fun _ => none⟩ : Folding τ) x x :=
        ⟨rfl, nofun⟩
      exact foldOps_kept (foldOps_kept hempty h hfirst) hexact hops
    · apply pends_ofFold
      exact fun next hfold => foldOps_kept h hexact hfold
    · trivial

/-- What a consumer holds: a replica that what is pending takes to the current revision. -/
def Consumer.Kept (c : Consumer τ) : Prop :=
  ∃ r, c.replica = .ok r ∧ Pends r.data c.current.data c.pending

section Consumer

variable {applier : Applier τ}
  (happlier : ∀ r ops, outcome (applier r ops) = r.data.replay (ops.map Op.data))
include happlier

variable {c : Consumer τ}

theorem take_current (h : c.Kept) :
    ∃ r, (c.step applier .take).replica = .ok r ∧ r.data = c.current.data := by
  obtain ⟨r, hr, hpends⟩ := h
  have hops : ∀ ops : List (Op (Value τ)), r.data.replay (ops.map Op.data) = some c.current.data →
      ∃ r', (c.replica >>= fun r => applier r ops) = .ok r' ∧ r'.data = c.current.data := by
    intro ops hreplay
    rw [hr, Except.ok_bind]
    apply exists_of_outcome
    rw [happlier, hreplay]
  unfold Consumer.step
  cases hpending : c.pending with
  | empty =>
    rw [hpending] at hpends
    exact hops [] (congrArg some hpends)
  | batch ops =>
    rw [hpending] at hpends
    exact hops ops hpends.replay
  | folding folded =>
    rw [hpending] at hpends
    exact hops folded.ops hpends.exact.replay
  | replace => exact ⟨c.current, rfl, rfl⟩

theorem take_kept (h : c.Kept) : (c.step applier .take).Kept := by
  obtain ⟨r, hr, hdata⟩ := take_current happlier h
  have hcurrent : (c.step applier .take).current = c.current := by
    unfold Consumer.step
    cases c.pending <;> rfl
  have hpending : (c.step applier .take).pending = .empty := by
    unfold Consumer.step
    cases c.pending <;> rfl
  refine ⟨r, hr, ?_⟩
  rw [hcurrent, hpending]
  exact hdata

def Consumer.pushesExact (c : Consumer τ) : ConsumerInput τ → Prop
  | .push ops revision => c.current.data.Exact (ops.map Op.data) revision.data
  | .take => True

theorem step_pending {input : ConsumerInput τ} (h : c.Kept) (hinput : c.pushesExact input)
    : (c.step applier input).Kept := by
  cases input with
  | push ops revision =>
    obtain ⟨r, hr, hpends⟩ := h
    exact ⟨r, hr, push_kept hpends hinput⟩
  | take => exact take_kept happlier h

end Consumer

end Pending

/-! ## Runs -/

/-- What the owner of a queue does: it pushes the difference of the current revision and the next,
or a batch of the tracker, which replays the one to the other by paths that fit. -/
inductive Consumer.Serves (c : Consumer Nat) : ConsumerInput Nat → Prop where
  | diff {U : Value Nat → Prop} {ops : List (Op (Value Nat))} {revision : Value Nat} (hU : Sound U)
    (hcurrent : U c.current) (hrevision : U revision)
    (hops : diffRevisions c.current revision = some ops) : c.Serves (.push ops revision)
  | tracked {ops : List (Op (Value Nat))} {revision : Value Nat}
    (hexact : c.current.data.Exact (ops.map Op.data) revision.data) : c.Serves (.push ops revision)
  | take : c.Serves .take

theorem Consumer.Serves.pushesExact {c : Consumer Nat} {input : ConsumerInput Nat}
    (h : c.Serves input) : c.pushesExact input := by
  cases h with
  | diff hU hcurrent hrevision hops =>
    obtain ⟨ops, heq, hexact, -⟩ := diffRevisions_some hU hcurrent hrevision
    rw [hops] at heq
    cases heq
    exact hexact
  | tracked hexact => exact hexact
  | take => trivial

/-- **A slow consumer misses nothing**: however pushes and takes interleave, after every take it
holds the data of the revision that was pushed last, with either applier. -/
theorem taker_holds_current {applier : Applier Nat}
    (happlier : applier = apply ∨ applier = applyImmutable) {initial : Value Nat} {c : Consumer Nat}
    (h : Run.Reachable (Consumer.step applier) Consumer.Serves (Consumer.init initial) c) :
    ∃ r, (c.step applier .take).replica = .ok r ∧ r.data = c.current.data := by
  have hreplays : ∀ r ops, outcome (applier r ops) = r.data.replay (ops.map Op.data) := by
    rcases happlier with rfl | rfl
    · exact apply_data
    · exact applyImmutable_data
  apply take_current hreplays
  apply h.invariant Consumer.Kept
  · exact ⟨initial, rfl, rfl⟩
  · exact fun _ _ hkept hserves => step_pending hreplays hkept hserves.pushesExact

def grownText (tag : Nat) (text : Text) : Value Nat := .obj tag [([97], .str text)]

def grownTexts : List (Value Nat) :=
  [grownText 0 [98], grownText 1 [98, 99], grownText 2 [98, 99, 100], .str [98], .str [98, 99],
    .str [98, 99, 100]]

theorem grownTexts_sound : Sound (· ∈ grownTexts) := by
  constructor
  · intro tag items h
    simp [grownTexts, grownText] at h
  · intro tag fields h
    simp only [grownTexts, grownText, List.mem_cons, List.not_mem_nil, or_false, reduceCtorEq,
      Value.obj.injEq] at h ⊢
    rcases h with ⟨-, rfl⟩ | ⟨-, rfl⟩ | ⟨-, rfl⟩ <;> simp
  · intro tag fields h
    simp only [grownTexts, grownText, List.mem_cons, List.not_mem_nil, or_false, reduceCtorEq,
      Value.obj.injEq] at h ⊢
    rcases h with ⟨-, rfl⟩ | ⟨-, rfl⟩ | ⟨-, rfl⟩ <;> simp
  · intro x y hx hy h
    simp only [grownTexts, grownText, List.mem_cons, List.not_mem_nil, or_false] at hx hy
    rcases hx with rfl | rfl | rfl | rfl | rfl | rfl <;>
      rcases hy with rfl | rfl | rfl | rfl | rfl | rfl <;> first | rfl | cases h

def grownOnce : Consumer Nat :=
  (Consumer.init (grownText 0 [98])).step applyImmutable
    (.push [.a [.key [97]] [99]] (grownText 1 [98, 99]))

def grownTwice : Consumer Nat :=
  grownOnce.step applyImmutable (.push [.a [.key [97]] [100]] (grownText 2 [98, 99, 100]))

theorem taker_holds_current_grown :
    grownTwice.pending.take.1 = .ops [.a [.key [97]] [99, 100]]
      ∧ ∃ r, (grownTwice.step applyImmutable .take).replica = .ok r
        ∧ r.data = (grownText 2 [98, 99, 100]).data := by
  have honce : Consumer.Serves (Consumer.init (grownText 0 [98]))
      (.push [.a [.key [97]] [99]] (grownText 1 [98, 99])) :=
    Consumer.Serves.diff grownTexts_sound (by simp [grownTexts, Consumer.init])
      (by simp [grownTexts]) rfl
  have htwice : Consumer.Serves grownOnce
      (.push [.a [.key [97]] [100]] (grownText 2 [98, 99, 100])) :=
    Consumer.Serves.diff grownTexts_sound (by simp [grownTexts, grownOnce, Consumer.step])
      (by simp [grownTexts]) rfl
  exact ⟨rfl, taker_holds_current (.inr rfl) (.step _ (.step _ .init honce) htwice)⟩

end ThreeXhaust.Delta
