import ThreeXhaust.Delta.DiffMatches
import ThreeXhaust.Delta.Immutable
import ThreeXhaust.Delta.Leaves
import Mathlib.Data.List.Dedup
import Mathlib.Data.List.Perm.Subperm

/-!
# Replaying differences

What the comparison of two revisions emits takes the one to the other, whichever way it goes: every
function turns the value at its path from what is in `before` to what is in `after`, by operations
that fit where they are applied, unless the batch is given up.

* **`diffArrayRegion_emits`** — a region of two arrays, wherever its first element stands.
* **`diffValue_emits`** — two values at any path.
* **`diffRevisions_some`** — the batch of two revisions.
-/

namespace ThreeXhaust.Delta

open Utf16

/-! ## Values that can stand side by side -/

/-- Values of one heap: the parts of a value are among them, an object has a key once, and two
references to one container are to the same value. -/
structure Sound {τ : Type} [DecidableEq τ] (U : Value τ → Prop) : Prop where
  items : ∀ {tag items}, U (.arr tag items) → ∀ item ∈ items, U item
  fields : ∀ {tag fields}, U (.obj tag fields) → ∀ field ∈ fields, U field.2
  keys : ∀ {tag fields}, U (.obj tag fields) → (fields.map Prod.fst).Nodup
  same : ∀ {x y}, U x → U y → x.same y = true → x = y

section Replay

variable {τ : Type} [DecidableEq τ]

omit [DecidableEq τ] in
theorem getField_mem {fields : List (Text × Value τ)} {name : Text} {value : Value τ}
    (h : getField fields name = some value) : (name, value) ∈ fields := by
  induction fields with
  | nil => cases h
  | cons field fields ih =>
    rw [getField] at h
    split at h
    · next hname =>
      cases h
      rw [hname]
      exact List.mem_cons_self
    · exact List.mem_cons_of_mem _ (ih h)

omit [DecidableEq τ] in
theorem getField_none {fields : List (Text × Value τ)} {name : Text} :
    getField fields name = none ↔ name ∉ fields.map Prod.fst := by
  induction fields with
  | nil => exact ⟨fun _ => List.not_mem_nil, fun _ => rfl⟩
  | cons field fields ih =>
    rw [getField, List.map_cons, List.mem_cons, not_or, ← ih]
    split
    · next hname =>
      constructor
      · intro h
        cases h
      · exact fun h => absurd hname h.1
    · next hname => exact ⟨fun h => ⟨hname, h⟩, fun h => h.2⟩

section Equal

variable {U : Value τ → Prop}

omit [DecidableEq τ] in
/-- Two objects that have as many keys are the same data, where the one has the values of the other. -/
theorem dataFields_eq_of_subset {fields others : List (Text × Value τ)}
    (hlength : (others.map Prod.fst).dedup.length ≤ (fields.map Prod.fst).dedup.length)
    (hall : ∀ field ∈ fields, ∃ other, getField others field.1 = some other
      ∧ field.2.data = other.data) : dataFields fields = dataFields others := by
  have hkeys : (fields.map Prod.fst).dedup.Perm (others.map Prod.fst).dedup := by
    apply List.Subperm.perm_of_length_le _ hlength
    apply List.subperm_of_subset (List.nodup_dedup _)
    intro name hname
    obtain ⟨field, hfield, rfl⟩ := List.mem_map.mp (List.mem_dedup.mp hname)
    obtain ⟨other, hother, -⟩ := hall field hfield
    exact List.mem_dedup.mpr (List.mem_map.mpr ⟨_, getField_mem hother, rfl⟩)
  funext name
  rw [dataFields_eq, dataFields_eq]
  cases hfound : getField fields name with
  | none =>
    rw [getField_none, ← List.mem_dedup, hkeys.mem_iff, List.mem_dedup, ← getField_none] at hfound
    rw [hfound]
  | some value =>
    obtain ⟨other, hother, hdata⟩ := hall _ (getField_mem hfound)
    rw [hother, Option.map_some, Option.map_some, hdata]

mutual

/-- **Values that compare equal** are the same data. -/
theorem equalJson_data (hU : Sound U) (left right : Value τ) (hleft : U left) (hright : U right)
    (h : equalJson left right = true) : left.data = right.data := by
  match left, right, h with
  | .arr tag items, right, h =>
    unfold equalJson at h
    rw [Bool.or_eq_true] at h
    rcases h with h | h
    · rw [hU.same hleft hright h]
    · match right, h with
      | .arr tag' others, h =>
        rw [Bool.and_eq_true, decide_eq_true_eq] at h
        rw [Value.data, Value.data, equalItems_data hU items others (hU.items hleft) (hU.items hright)
          h.1 h.2]
  | .obj tag fields, right, h =>
    unfold equalJson at h
    rw [Bool.or_eq_true] at h
    rcases h with h | h
    · rw [hU.same hleft hright h]
    · match right, h with
      | .obj tag' others, h =>
        rw [Bool.and_eq_true, decide_eq_true_eq] at h
        have hlength : (others.map Prod.fst).dedup.length ≤ (fields.map Prod.fst).dedup.length := by
          rw [List.Nodup.dedup (hU.keys hleft), List.Nodup.dedup (hU.keys hright), List.length_map, List.length_map, h.1]
        rw [Value.data, Value.data, dataFields_eq_of_subset hlength
          (equalFields_data hU fields others (hU.fields hleft) (hU.fields hright) h.2)]
  | .null, right, h => rw [hU.same hleft hright h]
  | .bool b, right, h => rw [hU.same hleft hright h]
  | .num n, right, h => rw [hU.same hleft hright h]
  | .str text, right, h => rw [hU.same hleft hright h]

theorem equalItems_data (hU : Sound U) (items others : List (Value τ)) (hitems : ∀ item ∈ items, U item)
    (hothers : ∀ other ∈ others, U other) (hlength : items.length = others.length)
    (h : equalItems items others = true) : dataItems items = dataItems others := by
  match items, others, hlength, h with
  | [], [], _, _ => rfl
  | item :: items, other :: others, hlength, h =>
    rw [equalItems, Bool.and_eq_true] at h
    rw [List.forall_mem_cons] at hitems hothers
    rw [dataItems, dataItems, equalJson_data hU item other hitems.1 hothers.1 h.1,
      equalItems_data hU items others hitems.2 hothers.2 (Nat.succ.inj hlength) h.2]

theorem equalFields_data (hU : Sound U) (fields others : List (Text × Value τ))
    (hfields : ∀ field ∈ fields, U field.2) (hothers : ∀ other ∈ others, U other.2) (h : equalFields fields others = true) :
    ∀ field ∈ fields, ∃ other, getField others field.1 = some other
      ∧ field.2.data = other.data := by
  match fields, h with
  | [], _ => exact nofun
  | (key, value) :: fields, h =>
    rw [equalFields, Bool.and_eq_true] at h
    rw [List.forall_mem_cons] at hfields ⊢
    refine ⟨?_, equalFields_data hU fields others hfields.2 hothers h.2⟩
    split at h
    · next other hother =>
      exact ⟨other, hother, equalJson_data hU value other hfields.1 (hothers _ (getField_mem hother)) h.1⟩
    · cases h.1

end

theorem sameValue_data (hU : Sound U) {left right : Value τ} (hleft : U left) (hright : U right)
    (h : sameValue left right = true) : left.data = right.data := by
  rw [sameValue, Bool.or_eq_true] at h
  rcases h with h | h
  · rw [hU.same hleft hright h]
  · exact equalJson_data hU left right hleft hright h

end Equal

/-! ## Batches that grow -/

/-- The batch was given up, or it grew by operations that turn `x` into `y` at the path, none of
which replaces the whole. -/
def Emits (batch batch' : Batch τ) (path : Path) (x y : Data) : Prop :=
  batch'.overflowed = true ∨ ∃ new, batch.overflowed = false ∧ batch' = ⟨batch.ops ++ new, false⟩
    ∧ (∀ value, Op.r value ∉ new) ∧ Turns (new.map Op.data) path x y

section Emits

omit [DecidableEq τ]

variable {batch batch' batch'' : Batch τ} {path : Path} {x y z : Data}

theorem Emits.refl (batch : Batch τ) (path : Path) (x : Data) : Emits batch batch path x x := by
  cases hoverflowed : batch.overflowed with
  | true => exact .inl hoverflowed
  | false =>
    refine .inr ⟨[], hoverflowed, ?_, fun _ => List.not_mem_nil, Turns.nil path x⟩
    rw [List.append_nil, ← hoverflowed]

/-- **One batch after the other.** -/
theorem Emits.trans (h : Emits batch batch' path x y) (h' : Emits batch' batch'' path y z) :
    Emits batch batch'' path x z := by
  rcases h' with h' | ⟨new', hoverflowed', rfl, hreplace', hturns'⟩
  · exact .inl h'
  rcases h with h | ⟨new, hoverflowed, rfl, hreplace, hturns⟩
  · rw [hoverflowed'] at h
    cases h
  · refine .inr ⟨new ++ new', hoverflowed, ?_, fun value hmem => ?_, ?_⟩
    · rw [List.append_assoc]
    · rcases List.mem_append.mp hmem with hmem | hmem
      · exact hreplace value hmem
      · exact hreplace' value hmem
    · rw [List.map_append]
      exact hturns.append hturns'

theorem Emits.inside {rest : Path} {inner : Data → Data} (h : Emits batch batch' (path ++ rest) x y)
    (hinner : Hole rest inner) : Emits batch batch' path (inner x) (inner y) := by
  rcases h with h | ⟨new, hoverflowed, heq, hreplace, hturns⟩
  · exact .inl h
  · exact .inr ⟨new, hoverflowed, heq, hreplace, hturns.inside hinner⟩

theorem emit_emits {op : Op (Value τ)} (batch : Batch τ) (hreplace : ∀ value, op ≠ .r value)
    (h : Turns [op.data] path x y) : Emits batch (batch.emit op) path x y := by
  unfold Batch.emit
  split
  · next hoverflowed => exact .inl hoverflowed
  split
  · exact .inl rfl
  · next hoverflowed _ =>
    rw [Bool.not_eq_true] at hoverflowed
    refine .inr ⟨[op], hoverflowed, ?_, fun value hmem => ?_, h⟩
    · rw [hoverflowed]
    · exact hreplace value (List.mem_singleton.mp hmem).symm

end Emits

/-! ## Properties and strings -/

theorem assertPathArg_of_safe {path : Path} (hpath : path ≠ []) (hsafe : SafePath path) :
    assertPathArg path true = .ok () := assertPathArg_ok.mpr ⟨fun _ => hpath, hsafe⟩

section Leaf

variable {path : Path} (hpath : path ≠ []) (hsafe : SafePath path)
include hpath hsafe

theorem leaf_turns {op : Op Data} {x y : Data} (hvalid : assertValidOp op = assertPathArg path true)
    (htarget : op.target = path.dropLast) (hop : op.path = path)
    (hedit : ∀ (w : Data) seg, path.getLast? = some seg → w.child seg = some x →
      op.edit w = w.put seg y) : Turns [op] path x y := by
  have hsplit := List.dropLast_concat_getLast hpath
  rw [← hsplit]
  apply Turns.leaf (hvalid.trans (assertPathArg_of_safe hpath hsafe)) htarget (hop.trans hsplit.symm)
  exact fun w => hedit w _ (List.getLast?_eq_some_getLast hpath)

omit [DecidableEq τ] in
theorem emitSet_emits (value : Value τ) (batch : Batch τ) (x : Data) :
    Emits batch (emitSet path value batch) path x value.data := by
  rw [emitSet, if_neg hpath]
  apply emit_emits batch
  · intro _ heq
    cases heq
  apply leaf_turns hpath hsafe rfl rfl rfl
  intro w seg hseg _
  show path.getLast?.bind _ = _
  rw [hseg, Option.bind_some]

omit [DecidableEq τ] in
theorem append_emits (batch : Batch τ) (text more : Text) :
    Emits batch (batch.emit (.a path more)) path (.str text) (.str (text ++ more)) := by
  apply emit_emits batch
  · intro _ heq
    cases heq
  apply leaf_turns hpath hsafe rfl rfl rfl
  intro w seg hseg hchild
  show path.getLast?.bind _ = _
  rw [hseg, Option.bind_some, Data.putText, hchild]

omit [DecidableEq τ] in
theorem cut_emits (batch : Batch τ) (text : Text) (count : Nat) :
    Emits batch (batch.emit (.t path count)) path (.str text) (.str (text.drop count)) := by
  apply emit_emits batch
  · intro _ heq
    cases heq
  apply leaf_turns hpath hsafe rfl rfl rfl
  intro w seg hseg hchild
  show path.getLast?.bind _ = _
  rw [hseg, Option.bind_some, Data.putText, hchild]

omit [DecidableEq τ] in
/-- A string: more at its end, less at its front, or set anew. -/
theorem emitString_emits (before after : Text) (batch : Batch τ) :
    Emits batch (emitString before after path batch) path (.str before) (.str after) := by
  unfold emitString
  split
  · next heq =>
    rw [heq]
    exact Emits.refl batch path _
  split
  · next hprefix =>
    have hafter : before ++ after.drop before.length = after := by
      conv_rhs => rw [← List.take_append_drop before.length after, hprefix.2]
    have happend := append_emits hpath hsafe batch before (after.drop before.length)
    rwa [hafter] at happend
  dsimp only
  obtain ⟨hle, hshared⟩ := overlap_spec before after 65536 64 8
  generalize overlap before after 65536 64 8 = shared at hle hshared
  split
  · have hset := emitSet_emits hpath hsafe (.str after) batch (.str before)
    rwa [emitSet, if_neg hpath] at hset
  · have hcut := cut_emits hpath hsafe batch before (before.length - shared)
    rw [hshared] at hcut
    split
    · apply hcut.trans
      have happend := append_emits hpath hsafe (batch.emit (.t path (before.length - shared)))
        (after.take shared) (after.drop shared)
      rwa [List.take_append_drop] at happend
    · next hlength =>
      rwa [List.take_of_length_le (by omega)] at hcut

end Leaf

/-! ## Slices -/

variable {stop : Nat}

section Slices

omit [DecidableEq τ]

theorem slice_split (items : List (Value τ)) {start middle : Nat} (h : start ≤ middle)
    (h' : middle ≤ stop) :
    slice items start stop = slice items start middle ++ slice items middle stop := by
  unfold slice
  rw [show stop - start = (middle - start) + (stop - middle) by omega, List.take_add, List.drop_drop,
    show start + (middle - start) = middle by omega]

theorem slice_length {items : List (Value τ)} {start : Nat} (h : stop ≤ items.length) :
    (slice items start stop).length = stop - start := by
  rw [slice, List.length_take, List.length_drop]
  omega

theorem slice_self (items : List (Value τ)) (start : Nat) : slice items start start = [] := by
  rw [slice, Nat.sub_self, List.take_zero]

theorem slice_whole (items : List (Value τ)) : slice items 0 items.length = items := by
  rw [slice, List.drop_zero, Nat.sub_zero, List.take_length]

theorem slice_single {items : List (Value τ)} {index : Nat} (h : index < items.length) :
    slice items index (index + 1) = [itemAt items index] := by
  rw [slice, Nat.add_sub_cancel_left, List.drop_eq_getElem_cons h, List.take_succ_cons,
    List.take_zero, itemAt, List.getElem?_eq_getElem h, Option.getD_some]

theorem itemAt_mem {items : List (Value τ)} {index : Nat} (h : index < items.length) :
    itemAt items index ∈ items := by
  rw [itemAt, List.getElem?_eq_getElem h, Option.getD_some]
  exact List.getElem_mem h

theorem mem_of_mem_slice {items : List (Value τ)} {start : Nat} {item : Value τ}
    (h : item ∈ slice items start stop) : item ∈ items :=
  List.mem_of_mem_drop (List.mem_of_mem_take h)

theorem drop_slice (items : List (Value τ)) {start back : Nat} (h : start + back ≤ stop) :
    (slice items start stop).drop (stop - start - back) = slice items (stop - back) stop := by
  unfold slice
  rw [List.drop_take, List.drop_drop, show start + (stop - start - back) = stop - back by omega,
    show stop - start - (stop - start - back) = stop - (stop - back) by omega]

end Slices

def cut (items : List (Value τ)) (start stop : Nat) : List Data :=
  (slice items start stop).map Value.data

section Cuts

omit [DecidableEq τ]

theorem cut_split (items : List (Value τ)) {start middle : Nat} (h : start ≤ middle)
    (h' : middle ≤ stop)
    : cut items start stop = cut items start middle ++ cut items middle stop := by
  rw [cut, slice_split items h h', List.map_append]
  rfl

theorem cut_length {items : List (Value τ)} {start : Nat} (h : stop ≤ items.length) :
    (cut items start stop).length = stop - start := by
  rw [cut, List.length_map, slice_length h]

theorem cut_self (items : List (Value τ)) (start : Nat) : cut items start start = [] := by
  rw [cut, slice_self, List.map_nil]

theorem cut_cons {items : List (Value τ)} {index : Nat} (h : index < stop)
    (h' : stop ≤ items.length) :
    cut items index stop = (itemAt items index).data :: cut items (index + 1) stop := by
  rw [cut_split items (Nat.le_succ index) h, cut, slice_single (by omega)]
  rfl

end Cuts

/-! ## Regions -/

structure Region.Inside (region : Region) (before after : List (Value τ)) : Prop where
  before_le : region.beforeStart ≤ region.beforeEnd
  before_end : region.beforeEnd ≤ before.length
  after_le : region.afterStart ≤ region.afterEnd
  after_end : region.afterEnd ≤ after.length

def Region.size (region : Region) : Nat :=
  (region.beforeEnd - region.beforeStart) + (region.afterEnd - region.afterStart)

variable {region : Region}

section Trim

variable {U : Value τ → Prop} (hU : Sound U)
include hU

theorem commonPrefix_spec {lefts rights : List (Value τ)} (hlefts : ∀ left ∈ lefts, U left)
    (hrights : ∀ right ∈ rights, U right) :
    commonPrefix lefts rights ≤ lefts.length ∧ commonPrefix lefts rights ≤ rights.length
      ∧ (lefts.take (commonPrefix lefts rights)).map Value.data
        = (rights.take (commonPrefix lefts rights)).map Value.data := by
  induction lefts generalizing rights with
  | nil =>
    rw [commonPrefix.eq_def]
    exact ⟨Nat.zero_le _, Nat.zero_le _, rfl⟩
  | cons left lefts ih =>
    cases rights with
    | nil => exact ⟨Nat.zero_le _, Nat.zero_le _, rfl⟩
    | cons right rights =>
      rw [List.forall_mem_cons] at hlefts hrights
      rw [commonPrefix]
      split
      · next hsame =>
        obtain ⟨hle, hle', htake⟩ := ih hlefts.2 hrights.2
        refine ⟨Nat.succ_le_succ hle, Nat.succ_le_succ hle', ?_⟩
        rw [List.take_succ_cons, List.take_succ_cons, List.map_cons, List.map_cons, htake,
          sameValue_data hU hlefts.1 hrights.1 hsame]
      · exact ⟨Nat.zero_le _, Nat.zero_le _, rfl⟩

theorem commonSuffix_spec {lefts rights : List (Value τ)} (hlefts : ∀ left ∈ lefts, U left)
    (hrights : ∀ right ∈ rights, U right) :
    commonPrefix lefts.reverse rights.reverse ≤ lefts.length
      ∧ commonPrefix lefts.reverse rights.reverse ≤ rights.length
      ∧ (lefts.drop (lefts.length - commonPrefix lefts.reverse rights.reverse)).map Value.data
        = (rights.drop (rights.length - commonPrefix lefts.reverse rights.reverse)).map
          Value.data := by
  obtain ⟨hle, hle', htake⟩ := commonPrefix_spec hU
    (fun left hleft => hlefts left (List.mem_reverse.mp hleft))
    (fun right hright => hrights right (List.mem_reverse.mp hright))
  rw [List.length_reverse] at hle hle'
  refine ⟨hle, hle', ?_⟩
  rw [List.take_reverse, List.take_reverse, List.map_reverse, List.map_reverse] at htake
  exact List.reverse_inj.mp htake

theorem cut_front {before after : List (Value τ)} (hbefore : ∀ item ∈ before, U item)
    (hafter : ∀ item ∈ after, U item) (h : region.Inside before after) {front : Nat}
    (hfront : front = commonPrefix (slice before region.beforeStart region.beforeEnd)
      (slice after region.afterStart region.afterEnd)) :
    region.beforeStart + front ≤ region.beforeEnd ∧ region.afterStart + front ≤ region.afterEnd
      ∧ cut before region.beforeStart (region.beforeStart + front)
        = cut after region.afterStart (region.afterStart + front) := by
  obtain ⟨hle, hle', htake⟩ := commonPrefix_spec hU
    (fun item (hitem : item ∈ slice before region.beforeStart region.beforeEnd) =>
      hbefore item (mem_of_mem_slice hitem))
    (fun item (hitem : item ∈ slice after region.afterStart region.afterEnd) =>
      hafter item (mem_of_mem_slice hitem))
  rw [← hfront, slice_length h.before_end] at hle
  rw [← hfront, slice_length h.after_end] at hle'
  have h1 := h.before_le
  have h2 := h.after_le
  refine ⟨by omega, by omega, ?_⟩
  rw [← hfront, slice, slice, List.take_take, List.take_take, Nat.min_eq_left hle,
    Nat.min_eq_left hle'] at htake
  rw [cut, cut, slice, slice, Nat.add_sub_cancel_left, Nat.add_sub_cancel_left]
  exact htake

theorem cut_back {before after : List (Value τ)} (hbefore : ∀ item ∈ before, U item)
    (hafter : ∀ item ∈ after, U item) (h : region.Inside before after) {back : Nat}
    (hback : back = commonPrefix (slice before region.beforeStart region.beforeEnd).reverse
      (slice after region.afterStart region.afterEnd).reverse) :
    region.beforeStart + back ≤ region.beforeEnd ∧ region.afterStart + back ≤ region.afterEnd
      ∧ cut before (region.beforeEnd - back) region.beforeEnd
        = cut after (region.afterEnd - back) region.afterEnd := by
  obtain ⟨hle, hle', hdrop⟩ := commonSuffix_spec hU
    (fun item (hitem : item ∈ slice before region.beforeStart region.beforeEnd) =>
      hbefore item (mem_of_mem_slice hitem))
    (fun item (hitem : item ∈ slice after region.afterStart region.afterEnd) =>
      hafter item (mem_of_mem_slice hitem))
  rw [← hback, slice_length h.before_end] at hle
  rw [← hback, slice_length h.after_end] at hle'
  have h1 := h.before_le
  have h2 := h.after_le
  refine ⟨by omega, by omega, ?_⟩
  rw [← hback, slice_length h.before_end, slice_length h.after_end] at hdrop
  rwa [drop_slice before (by omega), drop_slice after (by omega)] at hdrop

/-- **A trimmed region**: what it lost at both ends is the same data. -/
theorem trimRegion_spec {before after : List (Value τ)} {whole : Region}
    (hbefore : ∀ item ∈ before, U item) (hafter : ∀ item ∈ after, U item)
    (h : whole.Inside before after) :
    (trimRegion before after whole).Inside before after
      ∧ (trimRegion before after whole).size ≤ whole.size
      ∧ ∃ front back : List Data,
        front.length = (trimRegion before after whole).beforeStart - whole.beforeStart
        ∧ cut before whole.beforeStart whole.beforeEnd
          = front ++ cut before (trimRegion before after whole).beforeStart
            (trimRegion before after whole).beforeEnd ++ back
        ∧ cut after whole.afterStart whole.afterEnd
          = front ++ cut after (trimRegion before after whole).afterStart
            (trimRegion before after whole).afterEnd ++ back := by
  obtain ⟨hfrontBefore, hfrontAfter, hfront⟩ := cut_front hU hbefore hafter h rfl
  have hstart : Region.Inside { whole with
      beforeStart := whole.beforeStart + commonPrefix
        (slice before whole.beforeStart whole.beforeEnd)
        (slice after whole.afterStart whole.afterEnd)
      afterStart := whole.afterStart + commonPrefix
        (slice before whole.beforeStart whole.beforeEnd)
        (slice after whole.afterStart whole.afterEnd) } before after :=
    ⟨hfrontBefore, h.before_end, hfrontAfter, h.after_end⟩
  obtain ⟨hbackBefore, hbackAfter, hback⟩ := cut_back hU hbefore hafter hstart rfl
  unfold trimRegion
  dsimp only at hbackBefore hbackAfter hback ⊢
  generalize commonPrefix (slice before whole.beforeStart whole.beforeEnd)
    (slice after whole.afterStart whole.afterEnd) = n at *
  generalize commonPrefix (τ := τ) _ _ = m at *
  have hbeforeEnd := h.before_end
  have hafterEnd := h.after_end
  refine ⟨⟨?_, ?_, ?_, ?_⟩, ?_, cut before whole.beforeStart (whole.beforeStart + n),
    cut before (whole.beforeEnd - m) whole.beforeEnd, ?_, ?_, ?_⟩
  · show whole.beforeStart + n ≤ whole.beforeEnd - m
    omega
  · show whole.beforeEnd - m ≤ before.length
    omega
  · show whole.afterStart + n ≤ whole.afterEnd - m
    omega
  · show whole.afterEnd - m ≤ after.length
    omega
  · show (whole.beforeEnd - m - (whole.beforeStart + n))
      + (whole.afterEnd - m - (whole.afterStart + n))
      ≤ (whole.beforeEnd - whole.beforeStart) + (whole.afterEnd - whole.afterStart)
    omega
  · rw [cut_length (by omega)]
  · rw [← cut_split before (by omega) (by omega), ← cut_split before (by omega) (by omega)]
  · rw [hfront, hback, ← cut_split after (by omega) (by omega),
      ← cut_split after (by omega) (by omega)]

end Trim

/-! ## Regions that are cut -/

section Regions

variable {before after : List (Value τ)} {path : Path}

/-- The function turns the elements of the one region into those of the other, wherever they are. -/
def RegionEmits (before after : List (Value τ)) (path : Path) (differ : RegionDiffer τ)
    (region : Region) : Prop :=
  ∀ output batch, ∃ batch', differ region output batch = some batch'
    ∧ ∀ front back : List Data, front.length = output →
      Emits batch batch' path
        (.arr (front ++ cut before region.beforeStart region.beforeEnd ++ back))
        (.arr (front ++ cut after region.afterStart region.afterEnd ++ back))

/-- The function turns the one value into the other, at every path but the root. -/
def ValueEmits (differ : Differ τ) (x y : Value τ) : Prop :=
  ∀ path batch, path ≠ [] → SafePath path → ∃ batch', differ x y path batch = some batch'
    ∧ Emits batch batch' path x.data y.data

theorem safePath_concat_index {path : Path} (hsafe : SafePath path) (index : Nat) :
    SafePath (path ++ [.index index]) := by
  intro name hname
  rcases List.mem_append.mp hname with hname | hname
  · exact hsafe name hname
  · cases List.mem_singleton.mp hname

omit [DecidableEq τ] in
theorem item_emits {batch batch' : Batch τ} (front back : List Data) {output : Nat} {x y : Data}
    (hfront : front.length = output) (h : Emits batch batch' (path ++ [.index output]) x y) :
    Emits batch batch' path (.arr (front ++ x :: back)) (.arr (front ++ y :: back)) := by
  rw [← hfront] at h
  exact h.inside (hole_index front back)

omit [DecidableEq τ] in
theorem splice_emits (hsafe : SafePath path) (batch : Batch τ) {front removed back : List Data}
    {output count : Nat} (items : List (Value τ)) (hfront : front.length = output)
    (hcount : removed.length = count) :
    Emits batch (batch.emit (.p path output count items)) path
      (.arr (front ++ removed ++ back)) (.arr (front ++ items.map Value.data ++ back)) := by
  apply emit_emits batch
  · intro _ heq
    cases heq
  have hvalid : assertValidOp (Op.p path output count items).data = .ok () :=
    assertPathArg_ok.mpr ⟨fun h => absurd h Bool.false_ne_true, hsafe⟩
  apply Turns.single hvalid rfl (List.append_nil path).symm trivial
  show some (Data.arr (splice _ output count (items.map Value.data))) = _
  rw [splice, ← hfront, ← hcount, ← List.length_append, List.drop_left, List.append_assoc front,
    List.take_left]

theorem within_tail {pair : ArrayMatch} {pairs : List ArrayMatch}
    (h : Within region (pair :: pairs)) :
    Within { region with beforeStart := pair.1 + 1, afterStart := pair.2 + 1 } pairs := by
  obtain ⟨hfirst, hgrowing⟩ := List.pairwise_cons.mp h.growing
  refine ⟨hgrowing, fun other hother => ?_⟩
  have hinside := h.inside other (List.mem_cons_of_mem _ hother)
  have hlt := hfirst other hother
  exact ⟨hlt.1, hinside.2.1, hlt.2, hinside.2.2.2⟩

theorem pair_emits {U : Value τ → Prop} (hU : Sound U) {differ : Differ τ} {x y : Value τ}
    (hx : U x) (hy : U y) (hvalue : ValueEmits differ x y) (hsafe : SafePath path) (output : Nat)
    (batch : Batch τ) :
    ∃ batch', (if sameValue x y then some batch else differ x y (path ++ [.index output]) batch)
        = some batch'
      ∧ Emits batch batch' (path ++ [.index output]) x.data y.data := by
  split
  · next hsame =>
    refine ⟨batch, rfl, ?_⟩
    rw [sameValue_data hU hx hy hsame]
    exact Emits.refl batch _ _
  · exact hvalue _ batch (by simp) (safePath_concat_index hsafe output)

omit [DecidableEq τ] in
theorem emitRegion_emits (hsafe : SafePath path) {diffValue : Differ τ}
    (hvalue : ∀ x ∈ before, ∀ y ∈ after, ValueEmits diffValue x y) {region : Region}
    (hinside : region.Inside before after) :
    RegionEmits before after path (emitRegion diffValue before after path) region := by
  intro output batch
  have hbeforeEnd := hinside.before_end
  have hafterEnd := hinside.after_end
  unfold emitRegion
  split
  · next hsingle =>
    have hb : region.beforeStart < region.beforeEnd := by omega
    have ha : region.afterStart < region.afterEnd := by omega
    obtain ⟨batch', heq, hemits⟩ := hvalue (itemAt before region.beforeStart)
      (itemAt_mem (by omega)) (itemAt after region.afterStart) (itemAt_mem (by omega))
      (path ++ [.index output]) batch (by simp) (safePath_concat_index hsafe output)
    refine ⟨batch', heq, fun front back hfront => ?_⟩
    rw [cut_cons hb hbeforeEnd, cut_cons ha hafterEnd,
      show region.beforeStart + 1 = region.beforeEnd by omega,
      show region.afterStart + 1 = region.afterEnd by omega, cut_self, cut_self]
    rw [List.append_assoc, List.append_assoc]
    exact item_emits front back hfront hemits
  · exact ⟨_, rfl, fun front back hfront => splice_emits hsafe batch _ hfront (cut_length hbeforeEnd)⟩

variable {U : Value τ → Prop} (hsafe : SafePath path) (hU : Sound U)
  (hbefore : ∀ item ∈ before, U item) (hafter : ∀ item ∈ after, U item)
include hsafe hU hbefore hafter

/-- Between the pairs that stay, region by region. -/
theorem processArrayMatches_emits {diffValue : Differ τ} {diffRegion : RegionDiffer τ} {bound : Nat}
    (hvalue : ∀ x ∈ before, ∀ y ∈ after, ValueEmits diffValue x y)
    (hregion : ∀ region : Region, region.Inside before after → region.size < bound →
      RegionEmits before after path diffRegion region) {pairs : List ArrayMatch}
    (hinside : region.Inside before after) (hpairs : Within region pairs)
    (hsize : region.size ≤ bound) (hnone : pairs = [] → region.size < bound) :
    RegionEmits before after path
      (processArrayMatches diffValue diffRegion before after path pairs) region := by
  induction pairs generalizing region with
  | nil =>
    intro output batch
    rw [processArrayMatches]
    split
    · next hoverflowed => exact ⟨batch, rfl, fun _ _ _ => .inl hoverflowed⟩
    · exact hregion region hinside (hnone rfl) output batch
  | cons pair pairs ih =>
    intro output batch
    rw [processArrayMatches]
    split
    · next hoverflowed => exact ⟨batch, rfl, fun _ _ _ => .inl hoverflowed⟩
    obtain ⟨hb, hb', ha, ha'⟩ := hpairs.inside pair List.mem_cons_self
    have hbeforeEnd := hinside.before_end
    have hafterEnd := hinside.after_end
    have hsize' : region.size = (region.beforeEnd - region.beforeStart)
      + (region.afterEnd - region.afterStart) := rfl
    -- the region before the pair, the pair, and what is behind it
    obtain ⟨batch₁, heq₁, hemits₁⟩ := hregion
      { region with beforeEnd := pair.1, afterEnd := pair.2 }
      ⟨hb, by dsimp only; omega, ha, by dsimp only; omega⟩
      (by unfold Region.size; dsimp only; omega) output batch
    have hx : itemAt before pair.1 ∈ before := itemAt_mem (by omega)
    have hy : itemAt after pair.2 ∈ after := itemAt_mem (by omega)
    obtain ⟨batch₂, heq₂, hemits₂⟩ := pair_emits hU (hbefore _ hx) (hafter _ hy)
      (hvalue _ hx _ hy) hsafe (output + (pair.2 - region.afterStart)) batch₁
    obtain ⟨batch₃, heq₃, hemits₃⟩ := @ih
      { region with beforeStart := pair.1 + 1, afterStart := pair.2 + 1 }
      ⟨hb', hbeforeEnd, ha', hafterEnd⟩ (within_tail hpairs)
      (by unfold Region.size; dsimp only; omega)
      (fun _ => by unfold Region.size; dsimp only; omega)
      (output + (pair.2 - region.afterStart) + 1) batch₂
    refine ⟨batch₃, ?_, fun front back hfront => ?_⟩
    · simp only [heq₁, Option.bind_eq_bind, Option.bind_some]
      split at heq₂
      · next hsame =>
        cases heq₂
        rw [if_pos hsame]
        exact heq₃
      · next hsame =>
        rw [if_neg hsame, heq₂]
        exact heq₃
    · have hcut : (cut after region.afterStart pair.2).length = pair.2 - region.afterStart :=
        cut_length (by omega)
      have h₁ := hemits₁ front ((itemAt before pair.1).data
        :: cut before (pair.1 + 1) region.beforeEnd ++ back) hfront
      have h₂ := item_emits (front ++ cut after region.afterStart pair.2)
        (cut before (pair.1 + 1) region.beforeEnd ++ back)
        (by rw [List.length_append, hcut, hfront]) hemits₂
      have h₃ := hemits₃ (front ++ cut after region.afterStart pair.2 ++ [(itemAt after pair.2).data])
        back (by rw [List.length_append, List.length_append, hcut, hfront]; rfl)
      rw [cut_split before hb (le_of_lt hb'), cut_cons hb' hbeforeEnd,
        cut_split after ha (le_of_lt ha'), cut_cons ha' hafterEnd]
      simp only [List.append_assoc, List.cons_append, List.nil_append] at h₁ h₂ h₃ ⊢
      exact (h₁.trans h₂).trans h₃

theorem diffArrayRegion_emits {diffValue : Differ τ}
    (hvalue : ∀ x ∈ before, ∀ y ∈ after, ValueEmits diffValue x y) {rounds : Nat} {whole : Region}
    (hinside : whole.Inside before after) (hsize : whole.size < rounds) :
    RegionEmits before after path (diffArrayRegion diffValue before after path rounds) whole := by
  induction rounds generalizing whole with
  | zero => omega
  | succ rounds ih =>
    intro output batch
    rw [diffArrayRegion]
    split
    · next hoverflowed => exact ⟨batch, rfl, fun _ _ _ => .inl hoverflowed⟩
    obtain ⟨htrimmed, hsmaller, front₀, back₀, hlength, hcut, hcut'⟩ :=
      trimRegion_spec hU hbefore hafter hinside
    have hpairs := regionMatches_within before after (trimRegion before after whole)
    dsimp only
    generalize trimRegion before after whole = region at *
    -- it is enough to compare what was not trimmed, behind what was
    suffices h : ∃ batch', _ = some batch' ∧ ∀ front back : List Data,
        front.length = output + (region.beforeStart - whole.beforeStart) →
        Emits batch batch' path
          (.arr (front ++ cut before region.beforeStart region.beforeEnd ++ back))
          (.arr (front ++ cut after region.afterStart region.afterEnd ++ back)) by
      obtain ⟨batch', heq, hemits⟩ := h
      refine ⟨batch', heq, fun front back hfront => ?_⟩
      have hbetween := hemits (front ++ front₀) (back₀ ++ back)
        (by rw [List.length_append, hfront, hlength])
      rw [hcut, hcut']
      simp only [List.append_assoc] at hbetween ⊢
      exact hbetween
    have hbeforeEnd := htrimmed.before_end
    have hbeforeLe := htrimmed.before_le
    have hafterLe := htrimmed.after_le
    split
    · next hempty =>
      refine ⟨batch, rfl, fun front back _ => ?_⟩
      rw [show region.beforeEnd = region.beforeStart by omega,
        show region.afterEnd = region.afterStart by omega, cut_self, cut_self]
      exact Emits.refl batch path _
    split
    · exact ⟨_, rfl, fun front back hfront =>
        splice_emits hsafe batch _ hfront (cut_length hbeforeEnd)⟩
    split
    · next hsome =>
      exact processArrayMatches_emits hsafe hU hbefore hafter hvalue
        (fun region hinside hsize => ih hinside hsize) htrimmed hpairs (by omega)
        (fun hnil => absurd hnil hsome) _ batch
    · exact emitRegion_emits hsafe hvalue htrimmed _ batch

/-! ## Arrays -/

omit hsafe hafter in
theorem mapM_stands {order : List Nat} {values : List (Value τ)}
    (hvalues : ∀ value ∈ values, U value) (h : List.Forall₂ (Stands before) order values) :
    (order.mapM fun i => (before.map Value.data)[i]?) = some (values.map Value.data) := by
  induction h with
  | nil => rfl
  | @cons index value order values hstands _ ih =>
    rw [List.forall_mem_cons] at hvalues
    obtain ⟨via, hvia, item, hitem, hsame, hsame'⟩ := hstands
    have hindex : (before.map Value.data)[index]? = some value.data := by
      rw [List.getElem?_map, hitem, Option.map_some,
        ← hU.same (hbefore via hvia) (hbefore item (List.mem_of_getElem? hitem)) hsame,
        hU.same (hbefore via hvia) hvalues.1 hsame']
    rw [List.mapM_cons, hindex, ih hvalues.2]
    rfl

theorem permutation_emits {order : List Nat} (h : permutation before after = some order)
    (batch : Batch τ) :
    Emits batch (batch.emit (.m path order)) path (.arr (before.map Value.data))
      (.arr (after.map Value.data)) := by
  obtain ⟨hvalid, hlength, hstands⟩ := permutation_spec h
  apply emit_emits batch
  · intro _ heq
    cases heq
  have hop : assertValidOp (Op.m path order : Op (Value τ)).data = .ok () := by
    show (assertPathArg path false >>= fun _ => assertPermutation order) = _
    rw [assertPathArg_ok.mpr ⟨fun h => absurd h Bool.false_ne_true, hsafe⟩]
    exact hvalid
  apply Turns.single hop rfl (List.append_nil path).symm trivial
  show (if _ then _ else none) = _
  rw [List.length_map, if_pos hlength.symm, mapM_stands hU hbefore hafter hstands]
  rfl

/-- **Two arrays.** -/
theorem diffArray_emits {diffValue : Differ τ}
    (hvalue : ∀ x ∈ before, ∀ y ∈ after, ValueEmits diffValue x y) (batch : Batch τ) :
    ∃ batch', diffArray diffValue before after path batch = some batch'
      ∧ Emits batch batch' path (.arr (before.map Value.data)) (.arr (after.map Value.data)) := by
  have hinside : Region.Inside ⟨0, before.length, 0, after.length⟩ before after :=
    ⟨Nat.zero_le _, le_rfl, Nat.zero_le _, le_rfl⟩
  have hsize : Region.size ⟨0, before.length, 0, after.length⟩
      < before.length + after.length + 1 := Nat.lt_succ_self _
  have hregion := diffArrayRegion_emits hsafe hU hbefore hafter hvalue hinside hsize
  unfold diffArray
  dsimp only
  split
  · next order horder =>
    refine ⟨_, rfl, ?_⟩
    split at horder
    · exact permutation_emits hsafe hU hbefore hafter horder batch
    · cases horder
  · obtain ⟨batch', heq, hemits⟩ := hregion 0 batch
    refine ⟨batch', heq, ?_⟩
    have hwhole := hemits [] [] rfl
    rw [List.nil_append, List.append_nil, List.nil_append, List.append_nil, cut, cut, slice_whole,
      slice_whole] at hwhole
    exact hwhole

end Regions

/-! ## Objects -/

section Objects

variable {path : Path} {field : Text → Option Data}

theorem safePath_concat_key {path : Path} {name : Text} (hsafe : SafePath path)
    (hname : name ∉ reservedSegments) : SafePath (path ++ [.key name]) := by
  intro other hother
  rcases List.mem_append.mp hother with hother | hother
  · exact hsafe other hother
  · cases List.mem_singleton.mp hother
    exact hname

omit [DecidableEq τ] in
theorem field_emits {batch batch' : Batch τ} {name : Text} {x y : Data}
    (hfield : field name = some x) (h : Emits batch batch' (path ++ [.key name]) x y) :
    Emits batch batch' path (.obj field) (.obj (Function.update field name (some y))) := by
  have hinside := h.inside (hole_key field name)
  rwa [← hfield, Function.update_eq_self] at hinside

theorem property_turns (hsafe : SafePath path) {name : Text} (hname : name ∉ reservedSegments)
    {op : Op Data} {y : Data} (hvalid : assertValidOp op = assertPathArg (path ++ [.key name]) true)
    (htarget : op.target = (path ++ [Seg.key name]).dropLast) (hop : op.path = path ++ [.key name])
    (hedit : op.edit (.obj field) = some y) : Turns [op] path (.obj field) y := by
  rw [List.dropLast_concat] at htarget
  have htyped : (Data.obj field).Typed [.key name] := ⟨trivial, fun _ _ => trivial⟩
  apply Turns.single _ htarget hop htyped hedit
  rw [hvalid]
  exact assertPathArg_of_safe (by simp) (safePath_concat_key hsafe hname)

omit [DecidableEq τ] in
theorem newField_emits (hsafe : SafePath path) {name : Text} (hname : name ∉ reservedSegments)
    (value : Value τ) (batch : Batch τ) :
    Emits batch (emitSet (path ++ [.key name]) value batch) path (.obj field)
      (.obj (Function.update field name (some value.data))) := by
  rw [emitSet, if_neg (by simp)]
  apply emit_emits batch
  · intro _ heq
    cases heq
  apply property_turns hsafe hname rfl rfl rfl
  show (path ++ [Seg.key name]).getLast?.bind _ = _
  rw [List.getLast?_concat]
  rfl

omit [DecidableEq τ] in
theorem deleteField_emits (hsafe : SafePath path) {name : Text} (hname : name ∉ reservedSegments)
    (batch : Batch τ) :
    Emits batch (batch.emit (.d (path ++ [.key name]))) path (.obj field)
      (.obj (Function.update field name none)) := by
  apply emit_emits batch
  · intro _ heq
    cases heq
  apply property_turns hsafe hname rfl rfl rfl
  show (path ++ [Seg.key name]).getLast?.bind _ = _
  rw [List.getLast?_concat]
  rfl

def written (fields : List (Text × Value τ)) (field : Text → Option Data) : Text → Option Data :=
  fun name => (dataFields fields name).or (field name)

omit [DecidableEq τ] in
theorem written_cons {name : Text} {value : Value τ} {fields : List (Text × Value τ)}
    (hkeys : ((name, value) :: fields).map Prod.fst |>.Nodup) :
    written fields (Function.update field name (some value.data))
      = written ((name, value) :: fields) field := by
  funext other
  rw [List.map_cons, List.nodup_cons] at hkeys
  rw [written, written, dataFields, Function.update_apply]
  split
  · next hother =>
    have hnone : dataFields fields other = none := by
      rw [dataFields_eq, getField_none.mpr (hother ▸ hkeys.1), Option.map_none]
    rw [hnone]
    rfl
  · rfl

omit [DecidableEq τ] in
/-- The properties that are new or changed, -/
theorem diffKeys_emits {diffValue : Differ τ} {before fields : List (Text × Value τ)}
    (hsafe : SafePath path) (hreserved : ∀ entry ∈ fields, entry.1 ∉ reservedSegments)
    (hkeys : (fields.map Prod.fst).Nodup)
    (hfield : ∀ entry ∈ fields, field entry.1 = (getField before entry.1).map Value.data)
    (hvalue : ∀ entry ∈ fields, ∀ old, getField before entry.1 = some old →
      ValueEmits diffValue old entry.2)
    (batch : Batch τ) :
    ∃ batch', diffKeys diffValue before path fields batch = some batch'
      ∧ Emits batch batch' path (.obj field) (.obj (written fields field)) := by
  induction fields generalizing field batch with
  | nil => exact ⟨batch, rfl, Emits.refl batch path _⟩
  | cons entry fields ih =>
    obtain ⟨name, value⟩ := entry
    rw [List.forall_mem_cons] at hreserved hfield hvalue
    rw [diffKeys]
    split
    · next hoverflowed => exact ⟨batch, rfl, .inl hoverflowed⟩
    have hnew : ∀ entry ∈ fields, Function.update field name (some value.data) entry.1
        = (getField before entry.1).map Value.data := by
      intro entry hentry
      have hne : entry.1 ≠ name := by
        rintro rfl
        exact (List.nodup_cons.mp hkeys).1 (List.mem_map.mpr ⟨entry, hentry, rfl⟩)
      rw [Function.update_of_ne hne, hfield.2 entry hentry]
    -- from where the field is written, the fields behind it are
    have hrest : ∀ batch₁, Emits batch batch₁ path (.obj field)
        (.obj (Function.update field name (some value.data))) →
        ∃ batch', diffKeys diffValue before path fields batch₁ = some batch'
          ∧ Emits batch batch' path (.obj field) (.obj (written ((name, value) :: fields) field)) := by
      intro batch₁ hemits₁
      obtain ⟨batch₂, heq₂, hemits₂⟩ :=
        ih hreserved.2 (List.nodup_cons.mp hkeys).2 hnew hvalue.2 batch₁
      rw [written_cons hkeys] at hemits₂
      exact ⟨batch₂, heq₂, hemits₁.trans hemits₂⟩
    cases hold : getField before name with
    | none => exact hrest _ (newField_emits hsafe hreserved.1 value batch)
    | some old =>
      obtain ⟨batch₁, heq₁, hemits₁⟩ := hvalue.1 old hold (path ++ [.key name]) batch (by simp)
        (safePath_concat_key hsafe hreserved.1)
      dsimp only
      rw [heq₁]
      refine hrest batch₁ (field_emits ?_ hemits₁)
      rw [hfield.1, hold, Option.map_some]

/-- The fields that are left when those of `fields` that are not in `after` are deleted. -/
def kept (after fields : List (Text × Value τ)) (field : Text → Option Data) : Text → Option Data :=
  fun name => if name ∈ fields.map Prod.fst ∧ getField after name = none then none else field name

omit [DecidableEq τ] in
/-- and those that are gone. -/
theorem deleteKeys_emits {after fields : List (Text × Value τ)} (hsafe : SafePath path)
    (hreserved : ∀ entry ∈ fields, entry.1 ∉ reservedSegments) (batch : Batch τ) :
    Emits batch (deleteKeys after path fields batch) path (.obj field)
      (.obj (kept after fields field)) := by
  induction fields generalizing field batch with
  | nil =>
    have hnone : kept after [] field = field := by
      funext name
      exact if_neg fun h => List.not_mem_nil h.1
    rw [hnone]
    exact Emits.refl batch path _
  | cons entry fields ih =>
    obtain ⟨name, value⟩ := entry
    rw [List.forall_mem_cons] at hreserved
    rw [deleteKeys]
    split
    · next hoverflowed => exact .inl hoverflowed
    split
    · next hsome =>
      have hkept : kept after fields field = kept after ((name, value) :: fields) field := by
        funext other
        unfold kept
        congr 1
        rw [List.map_cons, List.mem_cons, or_and_right]
        have hfalse : ¬ (other = name ∧ getField after other = none) := by
          rintro ⟨rfl, hnone⟩
          rw [hnone] at hsome
          cases hsome
        rw [eq_iff_iff, or_iff_right hfalse]
      rw [← hkept]
      exact ih hreserved.2 batch
    · next hnone =>
      rw [Bool.not_eq_true, Option.isSome_eq_false_iff, Option.isNone_iff_eq_none] at hnone
      have hkept : kept after fields (Function.update field name none)
          = kept after ((name, value) :: fields) field := by
        funext other
        unfold kept
        simp only [List.map_cons, List.mem_cons, Function.update_apply]
        by_cases hother : other = name
        · rw [if_pos hother, ite_self, if_pos ⟨.inl hother, hother ▸ hnone⟩]
        · simp only [hother, false_or, if_false]
      rw [← hkept]
      exact (deleteField_emits hsafe hreserved.1 batch).trans (ih hreserved.2 _)

omit [DecidableEq τ] in
/-- Together they are what the object is afterwards. -/
theorem kept_written (before after : List (Text × Value τ)) :
    kept after before (written after (dataFields before)) = dataFields after := by
  funext name
  unfold kept written
  rw [dataFields_eq, dataFields_eq]
  cases hnew : getField after name with
  | some value => rw [if_neg (fun h => nomatch h.2), Option.map_some, Option.some_or]
  | none =>
    by_cases hold : name ∈ before.map Prod.fst
    · rw [if_pos ⟨hold, rfl⟩, Option.map_none]
    · rw [if_neg (fun h => hold h.1), getField_none.mpr hold, Option.map_none, Option.or_none]

end Objects

/-! ## Values -/

section Values

variable {U : Value τ → Prop} (hU : Sound U)
include hU

/-- What a comparison may emit: at the root, also a replacement. -/
def Replays (batch batch' : Batch τ) (path : Path) (x y : Value τ) : Prop :=
  Emits batch batch' path x.data y.data ∨ path = [] ∧ batch' = batch.emit (.r y)

omit [DecidableEq τ] hU in
theorem emitSet_replays {path : Path} (hsafe : SafePath path) (x y : Value τ) (batch : Batch τ) :
    Replays batch (emitSet path y batch) path x y := by
  by_cases hpath : path = []
  · refine .inr ⟨hpath, ?_⟩
    rw [emitSet, if_pos hpath]
  · exact .inl (emitSet_emits hpath hsafe y batch x.data)

/-- **Two objects.** -/
theorem diffObject_replays {diffValue : Differ τ} {tag tag' : τ}
    {before after : List (Text × Value τ)} {path : Path} (hsafe : SafePath path)
    (hbefore : U (.obj tag before)) (hafter : U (.obj tag' after))
    (hvalue : ∀ x ∈ before, ∀ y ∈ after, ValueEmits diffValue x.2 y.2) (batch : Batch τ) :
    ∃ batch', diffObject diffValue tag tag' before after path batch = some batch'
      ∧ Replays batch batch' path (.obj tag before) (.obj tag' after) := by
  unfold diffObject
  split
  · refine ⟨_, rfl, ?_⟩
    split
    · next hequal =>
      left
      rw [equalJson_data hU _ _ hbefore hafter hequal]
      exact Emits.refl batch path _
    · exact emitSet_replays hsafe _ _ batch
  · next hreserved =>
    simp only [List.any_eq_true, decide_eq_true_eq, not_exists, not_and] at hreserved
    obtain ⟨batch₁, heq₁, hemits₁⟩ := diffKeys_emits hsafe
      (fun entry hentry => hreserved entry (List.mem_append_right _ hentry)) (hU.keys hafter)
      (fun entry _ => dataFields_eq before entry.1)
      (fun entry hentry old hold => hvalue _ (getField_mem hold) entry hentry) batch
    refine ⟨_, by rw [heq₁]; rfl, .inl (hemits₁.trans ?_)⟩
    have hdelete := @deleteKeys_emits τ path (written after (dataFields before)) after before hsafe
      (fun entry hentry => hreserved entry (List.mem_append_left _ hentry)) batch₁
    rw [kept_written] at hdelete
    exact hdelete

omit [DecidableEq τ] hU in
theorem depth_item {items : List (Value τ)} {item : Value τ} (h : item ∈ items) :
    item.depth ≤ depthItems items := by
  induction items with
  | nil => cases h
  | cons first items ih =>
    rw [depthItems]
    rcases List.mem_cons.mp h with rfl | h
    · exact le_max_left _ _
    · exact le_max_of_le_right (ih h)

omit [DecidableEq τ] hU in
theorem depth_field {fields : List (Text × Value τ)} {field : Text × Value τ} (h : field ∈ fields) :
    field.2.depth ≤ depthFields fields := by
  induction fields with
  | nil => cases h
  | cons first fields ih =>
    rw [depthFields]
    rcases List.mem_cons.mp h with rfl | h
    · exact le_max_left _ _
    · exact le_max_of_le_right (ih h)

theorem diffValue_replays {depth : Nat} {before after : Value τ} {path : Path}
    (hbefore : U before) (hafter : U after) (hdepth : before.depth < depth) (hsafe : SafePath path)
    (batch : Batch τ) :
    ∃ batch', diffValue depth before after path batch = some batch'
      ∧ Replays batch batch' path before after := by
  induction depth generalizing before after path batch with
  | zero => omega
  | succ depth ih =>
    have hinner : ∀ x y, U x → U y → x.depth < depth → ValueEmits (diffValue depth) x y := by
      intro x y hx hy hlt path batch hpath hsafe
      obtain ⟨batch', heq, hreplays⟩ := ih hx hy hlt hsafe batch
      exact ⟨batch', heq, hreplays.resolve_right fun h => hpath h.1⟩
    unfold diffValue
    split
    · next hdone =>
      refine ⟨batch, rfl, .inl ?_⟩
      rw [Bool.or_eq_true] at hdone
      rcases hdone with hsame | hoverflowed
      · rw [hU.same hbefore hafter hsame]
        exact Emits.refl batch path _
      · exact .inl hoverflowed
    cases before with
    | str left =>
      cases after with
      | str right =>
        refine ⟨_, rfl, ?_⟩
        split
        · exact emitSet_replays hsafe _ _ batch
        · next hpath => exact .inl (emitString_emits hpath hsafe left right batch)
      | _ => exact ⟨_, rfl, emitSet_replays hsafe _ _ batch⟩
    | arr tag items =>
      cases after with
      | arr tag' others =>
        dsimp only
        split
        · next hequal =>
          refine ⟨batch, rfl, .inl ?_⟩
          rw [equalJson_data hU _ _ hbefore hafter hequal]
          exact Emits.refl batch path _
        · have hvalue : ∀ x ∈ items, ∀ y ∈ others, ValueEmits (diffValue depth) x y := by
            intro x hx y hy
            apply hinner x y (hU.items hbefore x hx) (hU.items hafter y hy)
            have hle := depth_item hx
            rw [Value.depth] at hdepth
            omega
          obtain ⟨batch', heq, hemits⟩ := diffArray_emits hsafe hU (hU.items hbefore)
            (hU.items hafter) hvalue batch
          refine ⟨batch', heq, .inl ?_⟩
          rw [Value.data, Value.data, dataItems_eq, dataItems_eq]
          exact hemits
      | _ => exact ⟨_, rfl, emitSet_replays hsafe _ _ batch⟩
    | obj tag fields =>
      cases after with
      | obj tag' others =>
        apply diffObject_replays hU hsafe hbefore hafter
        intro x hx y hy
        apply hinner x.2 y.2 (hU.fields hbefore x hx) (hU.fields hafter y hy)
        have hle := depth_field hx
        rw [Value.depth] at hdepth
        omega
      | _ => exact ⟨_, rfl, emitSet_replays hsafe _ _ batch⟩
    | _ => exact ⟨_, rfl, emitSet_replays hsafe _ _ batch⟩

/-! ## Revisions -/

omit [DecidableEq τ] hU in
theorem replace_exact (x : Data) (value : Value τ) :
    x.Exact ([Op.r value].map Op.data) value.data := ⟨trivial, value.data, rfl, rfl⟩

theorem diffRevisions_some {before after : Value τ} (hbefore : U before) (hafter : U after) :
    ∃ ops, diffRevisions before after = some ops
      ∧ before.data.Exact (ops.map Op.data) after.data
      ∧ ∀ value, Op.r value ∈ ops → ops = [Op.r value] := by
  have hsole : ∀ value, Op.r value ∈ [Op.r after] → [Op.r after] = [Op.r value] := by
    intro value hmem
    rw [List.mem_singleton.mp hmem]
  have hreplace : before.data.Exact ([Op.r after].map Op.data) after.data
      ∧ ∀ value, Op.r value ∈ [Op.r after] → [Op.r after] = [Op.r value] :=
    ⟨replace_exact before.data after, hsole⟩
  have hroot : SafePath [] := nofun
  obtain ⟨batch, heq, hreplays⟩ := diffValue_replays hU hbefore hafter (Nat.lt_succ_self _) hroot
    ⟨[], false⟩
  unfold diffRevisions
  rw [heq, Option.bind_eq_bind, Option.bind_some]
  rcases hreplays with (hoverflowed | ⟨new, -, rfl, hnone, hturns⟩) | ⟨-, rfl⟩
  · rw [if_pos hoverflowed]
    exact ⟨_, rfl, hreplace⟩
  · have hnew : before.data.Exact (new.map Op.data) after.data
        ∧ ∀ value, Op.r value ∈ new → new = [Op.r value] :=
      ⟨hturns.exact, fun value hmem => absurd hmem (hnone value)⟩
    rw [if_neg Bool.false_ne_true, List.nil_append]
    dsimp only
    split
    · exact ⟨_, rfl, hnew⟩
    · exact absurd List.mem_cons_self (hnone _)
    · split
      · exact ⟨_, rfl, hnew⟩
      split
      · exact ⟨_, rfl, hreplace⟩
      · exact ⟨_, rfl, hnew⟩
  · exact ⟨_, rfl, hreplace⟩

end Values

end Replay

/-! ## Both appliers -/

theorem Data.Exact.valid {ops : List (Op Data)} {x y : Data} (h : x.Exact ops y) :
    ∀ op ∈ ops, assertValidOp op = .ok () := by
  induction ops generalizing x with
  | nil => exact nofun
  | cons op ops ih =>
    obtain ⟨-, z, hstep, hrest⟩ := h
    rw [List.forall_mem_cons]
    exact ⟨valid_of_step hstep, ih hrest⟩

theorem safePath_of_valid {V : Type} {op : Op V} (h : assertValidOp op = .ok ()) :
    SafePath op.path := by
  cases op with
  | r value => exact nofun
  | m path permutation =>
    cases hpath : assertPathArg path false with
    | error e =>
      have herror : (assertPathArg path false >>= fun _ => assertPermutation permutation) = .ok () := h
      rw [hpath] at herror
      cases herror
    | ok _ => exact (assertPathArg_ok.mp hpath).2
  | _ => exact (assertPathArg_ok.mp h).2

/-- **The difference of two revisions replays**: onto the first revision with either applier, `apply`
with a root and a batch of its own as it asks for, it never fails and gives the data of the second.
Every operation is valid, no path reaches the prototype chain, and a replacement stands alone. -/
theorem diffRevisions_replays {U : Value Nat → Prop} (hU : Sound U) {before after : Value Nat}
    (hbefore : U before) (hafter : U after) :
    ∃ ops, diffRevisions before after = some ops
      ∧ (∃ result, apply before.plain (ops.map (Op.map Value.plain)) = .ok result
        ∧ result.data = after.data)
      ∧ (∃ result, applyImmutable before ops = .ok result ∧ result.data = after.data)
      ∧ (∀ op ∈ ops, assertValidOp op = .ok () ∧ SafePath op.path)
      ∧ ∀ value, Op.r value ∈ ops → ops = [Op.r value] := by
  obtain ⟨ops, heq, hexact, hsole⟩ := diffRevisions_some hU hbefore hafter
  refine ⟨ops, heq, ?_, ?_, fun op hop => ?_, hsole⟩
  · apply exists_of_outcome
    rw [apply_data, data_plain, map_plain_data, hexact.replay]
  · apply exists_of_outcome
    rw [applyImmutable_data, hexact.replay]
  · have hvalid := hexact.valid op.data (List.mem_map_of_mem hop)
    rw [Op.data, assertValidOp_map] at hvalid
    exact ⟨hvalid, safePath_of_valid hvalid⟩

/-- Two elements change places; one of them is an object that both revisions share. -/
def sharedItem : Value Nat := .obj 2 []

def oldRevision : Value Nat := .obj 0 [([97], .arr 1 [sharedItem, .str [98]])]

def newRevision : Value Nat := .obj 3 [([97], .arr 4 [.str [98], sharedItem])]

def sharedHeap : List (Value Nat) :=
  [oldRevision, newRevision, .arr 1 [sharedItem, .str [98]], .arr 4 [.str [98], sharedItem],
    sharedItem, .str [98]]

theorem sharedHeap_sound : Sound (· ∈ sharedHeap) := by
  constructor
  · intro tag items h
    simp only [sharedHeap, oldRevision, newRevision, sharedItem, List.mem_cons, List.not_mem_nil,
      or_false, reduceCtorEq, false_or, Value.arr.injEq] at h ⊢
    rcases h with ⟨-, rfl⟩ | ⟨-, rfl⟩ <;> simp
  · intro tag fields h
    simp only [sharedHeap, oldRevision, newRevision, sharedItem, List.mem_cons, List.not_mem_nil,
      or_false, reduceCtorEq, false_or, Value.obj.injEq] at h ⊢
    rcases h with ⟨-, rfl⟩ | ⟨-, rfl⟩ | ⟨-, rfl⟩ <;> simp
  · intro tag fields h
    simp only [sharedHeap, oldRevision, newRevision, sharedItem, List.mem_cons, List.not_mem_nil,
      or_false, reduceCtorEq, false_or, Value.obj.injEq] at h ⊢
    rcases h with ⟨-, rfl⟩ | ⟨-, rfl⟩ | ⟨-, rfl⟩ <;> simp
  · intro x y hx hy h
    simp only [sharedHeap, oldRevision, newRevision, sharedItem, List.mem_cons, List.not_mem_nil,
      or_false] at hx hy
    rcases hx with rfl | rfl | rfl | rfl | rfl | rfl <;>
      rcases hy with rfl | rfl | rfl | rfl | rfl | rfl <;> first | rfl | cases h

theorem diffRevisions_replays_shared :
    ∃ ops, diffRevisions oldRevision newRevision = some ops
      ∧ ops = [.m [.key [97]] [1, 0]]
      ∧ (∃ result, applyImmutable oldRevision ops = .ok result ∧ result.data = newRevision.data) := by
  obtain ⟨ops, heq, -, hresult, -⟩ := diffRevisions_replays sharedHeap_sound
    (by simp [sharedHeap] : oldRevision ∈ sharedHeap) (by simp [sharedHeap] : newRevision ∈ sharedHeap)
  refine ⟨ops, heq, ?_, hresult⟩
  have hops : diffRevisions oldRevision newRevision = some [.m [.key [97]] [1, 0]] := by rfl
  rw [hops] at heq
  exact (Option.some.inj heq).symm

end ThreeXhaust.Delta
