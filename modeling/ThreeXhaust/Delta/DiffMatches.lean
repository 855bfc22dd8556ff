import ThreeXhaust.Delta.Diff
import Mathlib.Data.List.Forall2

/-!
# Pairs of elements that stay

Whichever way pairs of elements are found, they lie in the region and grow in both arrays, which is
all that the comparison of the regions between them needs. An order of elements is a permutation.

* **`regionMatches_within`** — every way of finding pairs.
* **`permutation_spec`** — the order in which elements moved.
* **`overlap_spec`** — the overlap of two strings.
-/

namespace ThreeXhaust.Delta

open Utf16

/-! ## Pairs in a region -/

def Growing (pairs : List ArrayMatch) : Prop := pairs.Pairwise fun a b => a.1 < b.1 ∧ a.2 < b.2

def Region.Has (region : Region) (pair : ArrayMatch) : Prop :=
  region.beforeStart ≤ pair.1 ∧ pair.1 < region.beforeEnd
    ∧ region.afterStart ≤ pair.2 ∧ pair.2 < region.afterEnd

structure Within (region : Region) (pairs : List ArrayMatch) : Prop where
  growing : Growing pairs
  inside : ∀ pair ∈ pairs, region.Has pair

theorem within_nil (region : Region) : Within region [] :=
  ⟨List.Pairwise.nil, nofun⟩

variable {region : Region} {pairs : List ArrayMatch}

theorem within_ite {p : Prop} [Decidable p] {pairs' : List ArrayMatch} (h : Within region pairs)
    (h' : Within region pairs') : Within region (if p then pairs else pairs') := by
  split
  · exact h
  · exact h'

theorem growing_cons {pair : ArrayMatch} (h : Growing pairs)
    (hfirst : ∀ other ∈ pairs, pair.1 < other.1 ∧ pair.2 < other.2) : Growing (pair :: pairs) :=
  List.Pairwise.cons hfirst h

section Finding

variable {τ : Type} [DecidableEq τ]

theorem positionalMatches_within (before after : List (Value τ)) (region : Region)
    (hcount : region.beforeEnd - region.beforeStart = region.afterEnd - region.afterStart) :
    Within region (positionalMatches before after region) := by
  constructor
  · unfold Growing positionalMatches
    rw [List.pairwise_map]
    apply List.Pairwise.filter
    apply List.Pairwise.imp _ List.pairwise_lt_range
    intro a b hab
    exact ⟨by omega, by omega⟩
  · intro pair hpair
    obtain ⟨offset, hoffset, rfl⟩ := List.mem_map.mp hpair
    have hlt := List.mem_range.mp (List.mem_filter.mp hoffset).1
    refine ⟨?_, ?_, ?_, ?_⟩ <;> dsimp only <;> omega

/-! ## The shorter side in the longer one -/

theorem findFrom_spec (p : Nat → Bool) (start stop : Nat) :
    findFrom p start stop = stop ∨ start ≤ findFrom p start stop ∧ findFrom p start stop < stop := by
  unfold findFrom
  cases hfound : (List.range' start (stop - start)).find? p with
  | none => exact .inl rfl
  | some k =>
    have hmem := List.mem_of_find?_eq_some hfound
    rw [List.mem_range'_1] at hmem
    right
    simp only [Option.getD_some]
    omega

theorem subsequence_spec {same : Nat → Nat → Bool} {stop : Nat} {shorts : List Nat} {start : Nat}
    (h : subsequence same stop shorts start = some pairs) (hshorts : shorts.Pairwise (· < ·)) :
    Growing pairs ∧ ∀ pair ∈ pairs, pair.1 ∈ shorts ∧ start ≤ pair.2 ∧ pair.2 < stop := by
  induction shorts generalizing start pairs with
  | nil =>
    cases h
    exact ⟨List.Pairwise.nil, nofun⟩
  | cons short shorts ih =>
    rw [subsequence] at h
    split at h
    · cases h
    · next hne =>
      obtain ⟨rest, hrest, rfl⟩ := Option.map_eq_some_iff.mp h
      obtain ⟨hlt, hpairwise⟩ := List.pairwise_cons.mp hshorts
      obtain ⟨hgrowing, hinside⟩ := ih hrest hpairwise
      have hfound := (findFrom_spec (same short) start stop).resolve_left hne
      constructor
      · apply growing_cons hgrowing
        intro other hother
        obtain ⟨hmem, hstart, -⟩ := hinside other hother
        exact ⟨hlt _ hmem, by dsimp only; omega⟩
      · intro pair hpair
        rcases List.mem_cons.mp hpair with rfl | hpair
        · exact ⟨List.mem_cons_self, hfound⟩
        · obtain ⟨hmem, hstart, hstop⟩ := hinside pair hpair
          exact ⟨List.mem_cons_of_mem _ hmem, by omega, hstop⟩

theorem identitySubsequence_within {before after : List (Value τ)}
    (h : identitySubsequence before after region = some pairs) : Within region pairs := by
  have hrange : ∀ start count, (List.range' start count).Pairwise (· < ·) :=
    fun _ _ => List.pairwise_lt_range'
  unfold identitySubsequence at h
  simp only at h
  split at h
  · obtain ⟨swapped, hswapped, rfl⟩ := Option.map_eq_some_iff.mp h
    obtain ⟨hgrowing, hinside⟩ := subsequence_spec hswapped (hrange _ _)
    constructor
    · unfold Growing
      rw [List.pairwise_map]
      exact hgrowing.imp fun hab => ⟨hab.2, hab.1⟩
    · intro pair hpair
      obtain ⟨⟨a, b⟩, hmem, rfl⟩ := List.mem_map.mp hpair
      obtain ⟨hshort, hstart, hstop⟩ := hinside (a, b) hmem
      have hshort := List.mem_range'_1.mp hshort
      refine ⟨?_, ?_, ?_, ?_⟩ <;> simp only [Prod.swap_prod_mk] at * <;> omega
  · split at h
    · obtain ⟨hgrowing, hinside⟩ := subsequence_spec h (hrange _ _)
      refine ⟨hgrowing, fun pair hpair => ?_⟩
      obtain ⟨hshort, hstart, hstop⟩ := hinside pair hpair
      have hshort := List.mem_range'_1.mp hshort
      exact ⟨hshort.1, by omega, hstart, hstop⟩
    · cases h

/-! ## Lower bounds -/

/-- `k` is a place in `values` between what is below `value` and what is not. -/
structure IsLowerBound (values : List Nat) (value k : Nat) : Prop where
  le : k ≤ values.length
  below : 0 < k → values.getD (k - 1) 0 < value
  above : k < values.length → value ≤ values.getD k 0

theorem lowerBoundLoop_spec (values : List Nat) (value : Nat) {rounds low high : Nat}
    (hrounds : high - low ≤ rounds) (hle : low ≤ high) (hhigh : high ≤ values.length)
    (hbelow : 0 < low → values.getD (low - 1) 0 < value)
    (habove : high < values.length → value ≤ values.getD high 0) :
    IsLowerBound values value (lowerBoundLoop values value rounds low high) := by
  induction rounds generalizing low high with
  | zero =>
    have heq : low = high := by omega
    exact ⟨by rw [lowerBoundLoop]; omega, hbelow, heq ▸ habove⟩
  | succ rounds ih =>
    rw [lowerBoundLoop]
    split
    · next hlt =>
      split
      · next hmiddle =>
        apply ih (by omega) (by omega) hhigh _ habove
        intro _
        rw [Nat.add_sub_cancel]
        exact hmiddle
      · next hmiddle =>
        apply ih (by omega) (by omega) (by omega) hbelow
        intro _
        omega
    · next hnot =>
      have heq : low = high := by omega
      exact ⟨by omega, hbelow, heq ▸ habove⟩

theorem lowerBound_spec (values : List Nat) (value : Nat) :
    IsLowerBound values value (lowerBound values value) := by
  apply lowerBoundLoop_spec values value (by omega) (Nat.zero_le _) le_rfl
  · intro hpos
    omega
  · intro hlt
    omega

/-! ## Positions -/

/-- The positions of every value grow and are those of elements it is the same as. -/
structure Places (items : List (Value τ)) (start : Nat) (entry : Position τ) : Prop where
  value : entry.value ∈ items
  growing : entry.indices.Pairwise (· < ·)
  inside : ∀ i ∈ entry.indices, start ≤ i ∧ ∃ item, items[i - start]? = some item
    ∧ entry.value.same item = true

theorem same_self (value : Value τ) : value.same value = true := by
  cases value with
  | null => rfl
  | _ => exact decide_eq_true rfl

theorem addPosition_places {items : List (Value τ)} {start index : Nat} {value : Value τ}
    {positions : List (Position τ)} (h : ∀ entry ∈ positions, Places items start entry)
    (hnew : ∀ entry ∈ positions, ∀ i ∈ entry.indices, i < index) (hstart : start ≤ index)
    (hitem : items[index - start]? = some value) :
    ∀ entry ∈ addPosition value index positions, Places items start entry := by
  induction positions with
  | nil =>
    intro entry hentry
    rw [addPosition, List.mem_singleton] at hentry
    subst hentry
    refine ⟨List.mem_of_getElem? hitem, List.pairwise_singleton _ _, fun i hi => ?_⟩
    rw [List.mem_singleton.mp hi]
    exact ⟨hstart, value, hitem, same_self value⟩
  | cons first positions ih =>
    rw [List.forall_mem_cons] at h hnew
    rw [addPosition]
    split
    · next hsame =>
      rw [List.forall_mem_cons]
      refine ⟨⟨h.1.value, ?_, fun i hi => ?_⟩, h.2⟩
      · rw [List.pairwise_append]
        refine ⟨h.1.growing, List.pairwise_singleton _ _, fun i hi j hj => ?_⟩
        rw [List.mem_singleton.mp hj]
        exact hnew.1 i hi
      · rcases List.mem_append.mp hi with hi | hi
        · exact h.1.inside i hi
        · rw [List.mem_singleton.mp hi]
          exact ⟨hstart, value, hitem, hsame⟩
    · rw [List.forall_mem_cons]
      exact ⟨h.1, ih h.2 hnew.2⟩

theorem addPosition_lt {index : Nat} {value : Value τ} {positions : List (Position τ)}
    (hnew : ∀ entry ∈ positions, ∀ i ∈ entry.indices, i < index) :
    ∀ entry ∈ addPosition value index positions, ∀ i ∈ entry.indices, i < index + 1 := by
  induction positions with
  | nil =>
    intro entry hentry i hi
    rw [addPosition, List.mem_singleton] at hentry
    subst hentry
    rw [List.mem_singleton.mp hi]
    exact Nat.lt_succ_self index
  | cons first positions ih =>
    rw [List.forall_mem_cons] at hnew
    have hrest : ∀ entry ∈ positions, ∀ i ∈ entry.indices, i < index + 1 :=
      fun entry hentry i hi => Nat.lt_succ_of_lt (hnew.2 entry hentry i hi)
    rw [addPosition]
    split
    · rw [List.forall_mem_cons]
      refine ⟨fun i hi => ?_, hrest⟩
      rcases List.mem_append.mp hi with hi | hi
      · exact Nat.lt_succ_of_lt (hnew.1 i hi)
      · rw [List.mem_singleton.mp hi]
        exact Nat.lt_succ_self index
    · rw [List.forall_mem_cons]
      exact ⟨fun i hi => Nat.lt_succ_of_lt (hnew.1 i hi), ih hnew.2⟩

theorem foldl_addPosition_places {items done rest : List (Value τ)} {start : Nat}
    {positions : List (Position τ)} (hitems : items = done ++ rest)
    (h : ∀ entry ∈ positions, Places items start entry)
    (hnew : ∀ entry ∈ positions, ∀ i ∈ entry.indices, i < start + done.length) :
    ∀ entry ∈ (rest.zipIdx (start + done.length)).foldl
      (fun positions item => addPosition item.1 item.2 positions) positions,
      Places items start entry := by
  induction rest generalizing done positions with
  | nil => exact h
  | cons item rest ih =>
    have hdone : start + done.length + 1 = start + (done ++ [item]).length := by
      rw [List.length_append, List.length_singleton, Nat.add_assoc]
    rw [List.zipIdx_cons, List.foldl_cons, hdone]
    apply ih (by rw [hitems, List.append_assoc]; rfl)
    · apply addPosition_places h hnew (Nat.le_add_right _ _)
      rw [hitems, Nat.add_sub_cancel_left, List.getElem?_append_right le_rfl, Nat.sub_self,
        List.getElem?_cons_zero]
    · rw [← hdone]
      exact addPosition_lt hnew

theorem positionsOf_places (items : List (Value τ)) (start : Nat) :
    ∀ entry ∈ positionsOf items start, Places items start entry :=
  foldl_addPosition_places (List.nil_append items).symm nofun nofun

theorem getPositions_some {value : Value τ} {positions : List (Position τ)} {indices : List Nat}
    (h : getPositions value positions = some indices) :
    ∃ entry ∈ positions, entry.indices = indices := by
  obtain ⟨entry, hentry, rfl⟩ := Option.map_eq_some_iff.mp h
  exact ⟨entry, List.mem_of_find?_eq_some hentry, rfl⟩

omit [DecidableEq τ] in
theorem slice_length_le (items : List (Value τ)) (start stop : Nat) :
    (slice items start stop).length ≤ stop - start :=
  List.length_take_le _ _

theorem region_positions {before : List (Value τ)} {value : Value τ} {indices : List Nat}
    (h : getPositions value (positionsOf (slice before region.beforeStart region.beforeEnd)
      region.beforeStart) = some indices) :
    indices.Pairwise (· < ·)
      ∧ ∀ i ∈ indices, region.beforeStart ≤ i ∧ i < region.beforeEnd := by
  obtain ⟨entry, hentry, rfl⟩ := getPositions_some h
  have hplaces := positionsOf_places _ _ entry hentry
  refine ⟨hplaces.growing, fun i hi => ?_⟩
  obtain ⟨hstart, item, hitem, -⟩ := hplaces.inside i hi
  have hlt := (List.getElem?_eq_some_iff.mp hitem).1
  have hle := slice_length_le before region.beforeStart region.beforeEnd
  exact ⟨hstart, by omega⟩

theorem region_found (before : List (Value τ)) (region : Region) (value : Value τ) :
    ((getPositions value (positionsOf (slice before region.beforeStart region.beforeEnd)
        region.beforeStart)).getD []).Pairwise (· < ·)
      ∧ ∀ i ∈ (getPositions value (positionsOf (slice before region.beforeStart region.beforeEnd)
        region.beforeStart)).getD [], region.beforeStart ≤ i ∧ i < region.beforeEnd := by
  cases hplaces : getPositions value (positionsOf (slice before region.beforeStart
      region.beforeEnd) region.beforeStart) with
  | none => exact ⟨List.Pairwise.nil, nofun⟩
  | some places => exact region_positions hplaces

/-! ## Anchors, greedily -/

theorem greedyAnchors_spec {positions : List (Position τ)} {after : List (Value τ)}
    {indices : List Nat} {floor : Nat} (hindices : indices.Pairwise (· < ·)) :
    Growing (greedyAnchors positions after indices floor)
      ∧ ∀ pair ∈ greedyAnchors positions after indices floor, floor ≤ pair.1 ∧ pair.2 ∈ indices
        ∧ ∃ places, getPositions (itemAt after pair.2) positions = some places
          ∧ pair.1 ∈ places := by
  induction indices generalizing floor with
  | nil => exact ⟨List.Pairwise.nil, nofun⟩
  | cons index indices ih =>
    obtain ⟨hlt, hpairwise⟩ := List.pairwise_cons.mp hindices
    have hskip := @ih floor hpairwise
    have hskip : Growing (greedyAnchors positions after indices floor)
        ∧ ∀ pair ∈ greedyAnchors positions after indices floor, floor ≤ pair.1
          ∧ pair.2 ∈ index :: indices
          ∧ ∃ places, getPositions (itemAt after pair.2) positions = some places
            ∧ pair.1 ∈ places :=
      ⟨hskip.1, fun pair hpair =>
        have hpair := hskip.2 pair hpair
        ⟨hpair.1, List.mem_cons_of_mem _ hpair.2.1, hpair.2.2⟩⟩
    rw [greedyAnchors]
    split
    · exact hskip
    · next candidates hcandidates =>
      split
      · exact hskip
      · next place hplace =>
        have hfloor : floor ≤ place := by
          have hbound := (List.getElem?_eq_some_iff.mp hplace).1
          have habove := (lowerBound_spec candidates floor).above hbound
          rwa [List.getD_eq_getElem?_getD, hplace] at habove
        obtain ⟨hgrowing, hinside⟩ := @ih (place + 1) hpairwise
        constructor
        · apply growing_cons hgrowing
          intro other hother
          obtain ⟨hplace, hmem, -⟩ := hinside other hother
          exact ⟨by dsimp only; omega, hlt _ hmem⟩
        · intro pair hpair
          rcases List.mem_cons.mp hpair with rfl | hpair
          · exact ⟨hfloor, List.mem_cons_self, candidates, hcandidates,
              List.mem_of_getElem? hplace⟩
          · obtain ⟨hplace, hmem, hplaces⟩ := hinside pair hpair
            exact ⟨by omega, List.mem_cons_of_mem _ hmem, hplaces⟩

/-! ## The longest run of anchors -/

/-- Every candidate is behind the one it names, in both arrays, and the tails are candidates. -/
structure Anchors.Chained (anchors : Anchors) : Prop where
  lengths : anchors.tails.length = anchors.tailValues.length
  tails : ∀ i tail, anchors.tails[i]? = some tail → ∃ candidate,
    anchors.candidates[tail]? = some candidate ∧ candidate.before = anchors.tailValues.getD i 0
  previous : ∀ candidate ∈ anchors.candidates, ∀ p, candidate.previous = some p →
    ∃ earlier, anchors.candidates[p]? = some earlier ∧ earlier.before < candidate.before
      ∧ earlier.after < candidate.after

theorem getElem?_setOrPush {values : List Nat} {index : Nat} (hindex : index ≤ values.length)
    (value i : Nat) : (setOrPush values index value)[i]? = if i = index then some value else values[i]? := by
  unfold setOrPush
  split
  · next hlt =>
    rw [List.getElem?_set]
    by_cases hi : i = index
    · rw [if_pos hi.symm, if_pos hi, if_pos hlt]
    · rw [if_neg (Ne.symm hi), if_neg hi]
  · next hge =>
    have heq : index = values.length := by omega
    by_cases hi : i = index
    · rw [if_pos hi, hi, heq, List.getElem?_concat_length]
    · rw [if_neg hi]
      by_cases hlt : i < values.length
      · exact List.getElem?_append_left hlt
      · rw [List.getElem?_eq_none (by rw [List.length_append, List.length_singleton]; omega),
          List.getElem?_eq_none (by omega)]

theorem length_setOrPush (values : List Nat) (index value : Nat) :
    (setOrPush values index value).length
      = if index < values.length then values.length else values.length + 1 := by
  unfold setOrPush
  split
  · exact List.length_set
  · exact List.length_append

variable {anchors : Anchors}

theorem Anchors.add_chained {after before : Nat} (h : anchors.Chained)
    (hbefore : ∀ candidate ∈ anchors.candidates, candidate.before < before →
      candidate.after < after) : (anchors.add after before).Chained := by
  have hplace := lowerBound_spec anchors.tailValues before
  have hkept : ∀ {i : Nat} {candidate}, anchors.candidates[i]? = some candidate →
      (anchors.add after before).candidates[i]? = some candidate := by
    intro i candidate hcandidate
    show (anchors.candidates ++ [_])[i]? = _
    rw [List.getElem?_append_left (List.getElem?_eq_some_iff.mp hcandidate).1, hcandidate]
  constructor
  · show (setOrPush _ _ _).length = (setOrPush _ _ _).length
    rw [length_setOrPush, length_setOrPush, h.lengths]
  · intro i tail htail
    have hle := hplace.le
    rw [show (anchors.add after before).tails = setOrPush anchors.tails _ _ from rfl,
      getElem?_setOrPush (h.lengths ▸ hle)] at htail
    rw [show (anchors.add after before).tailValues = setOrPush anchors.tailValues _ _ from rfl,
      List.getD_eq_getElem?_getD, getElem?_setOrPush hle]
    split at htail
    · next hi =>
      cases htail
      rw [if_pos hi]
      exact ⟨_, List.getElem?_concat_length, rfl⟩
    · next hi =>
      obtain ⟨candidate, hcandidate, hvalue⟩ := h.tails i tail htail
      rw [if_neg hi, ← List.getD_eq_getElem?_getD]
      exact ⟨candidate, hkept hcandidate, hvalue⟩
  · intro candidate hcandidate p hp
    rcases List.mem_append.mp hcandidate with hcandidate | hcandidate
    · obtain ⟨earlier, hearlier, hless⟩ := h.previous candidate hcandidate p hp
      exact ⟨earlier, hkept hearlier, hless⟩
    · rw [List.mem_singleton.mp hcandidate] at hp ⊢
      dsimp only at hp
      split at hp
      · cases hp
      · next hpos =>
        obtain ⟨earlier, hearlier, hvalue⟩ := h.tails _ p hp
        have hless : earlier.before < before := hvalue ▸ hplace.below (Nat.pos_of_ne_zero hpos)
        exact ⟨earlier, hkept hearlier, hless, hbefore earlier (List.mem_of_getElem? hearlier) hless⟩

theorem Anchors.foldl_add_chained {after : Nat} {places : List Nat} (h : anchors.Chained)
    (hplaces : places.Pairwise (· > ·))
    (hbefore : ∀ candidate ∈ anchors.candidates, candidate.after < after
      ∨ ∀ place ∈ places, place < candidate.before) :
    (places.foldl (fun anchors before => anchors.add after before) anchors).Chained := by
  induction places generalizing anchors with
  | nil => exact h
  | cons place places ih =>
    obtain ⟨hgt, hpairwise⟩ := List.pairwise_cons.mp hplaces
    rw [List.foldl_cons]
    apply ih _ hpairwise
    · intro candidate hcandidate
      rcases List.mem_append.mp hcandidate with hcandidate | hcandidate
      · apply (hbefore candidate hcandidate).imp_right
        exact fun hless other hother => hless other (List.mem_cons_of_mem _ hother)
      · rw [List.mem_singleton.mp hcandidate]
        exact .inr hgt
    · apply Anchors.add_chained h
      intro candidate hcandidate hless
      apply (hbefore candidate hcandidate).resolve_right
      intro hall
      exact absurd hless (Nat.lt_asymm (hall place List.mem_cons_self))

theorem Anchors.mem_foldl_add {after : Nat} {places : List Nat} {candidate : MatchCandidate}
    (h : candidate ∈ (places.foldl (fun anchors before => anchors.add after before) anchors).candidates) :
    candidate ∈ anchors.candidates ∨ candidate.after = after ∧ candidate.before ∈ places := by
  induction places generalizing anchors with
  | nil => exact .inl h
  | cons place places ih =>
    rcases ih h with hmem | ⟨hafter, hmem⟩
    · rcases List.mem_append.mp hmem with hmem | hmem
      · exact .inl hmem
      · rw [List.mem_singleton.mp hmem]
        exact .inr ⟨rfl, List.mem_cons_self⟩
    · exact .inr ⟨hafter, List.mem_cons_of_mem _ hmem⟩

theorem foldl_addAll_spec {found : Nat → List Nat} {indices : List Nat} {P : MatchCandidate → Prop}
    (h : anchors.Chained) (hindices : indices.Pairwise (· < ·))
    (hfound : ∀ index ∈ indices, (found index).Pairwise (· < ·))
    (hbefore : ∀ candidate ∈ anchors.candidates, ∀ index ∈ indices, candidate.after < index)
    (hold : ∀ candidate ∈ anchors.candidates, P candidate)
    (hnew : ∀ candidate, candidate.after ∈ indices → candidate.before ∈ found candidate.after →
      P candidate) :
    (indices.foldl (fun anchors index => Anchors.addAll anchors index (found index)) anchors).Chained
      ∧ ∀ candidate ∈ (indices.foldl (fun anchors index =>
          Anchors.addAll anchors index (found index)) anchors).candidates, P candidate := by
  induction indices generalizing anchors with
  | nil => exact ⟨h, hold⟩
  | cons index indices ih =>
    obtain ⟨hlt, hpairwise⟩ := List.pairwise_cons.mp hindices
    rw [List.foldl_cons]
    apply ih _ hpairwise (fun i hi => hfound i (List.mem_cons_of_mem _ hi))
    · intro candidate hcandidate i hi
      rcases Anchors.mem_foldl_add hcandidate with hmem | ⟨hafter, -⟩
      · exact hbefore candidate hmem i (List.mem_cons_of_mem _ hi)
      · exact hafter ▸ hlt i hi
    · intro candidate hcandidate
      rcases Anchors.mem_foldl_add hcandidate with hmem | ⟨hafter, hmem⟩
      · exact hold candidate hmem
      · rw [List.mem_reverse, ← hafter] at hmem
        exact hnew candidate (hafter ▸ List.mem_cons_self) hmem
    · exact fun candidate hcandidate => hnew candidate (List.mem_cons_of_mem _ hcandidate)
    · apply Anchors.foldl_add_chained h
      · rw [List.pairwise_reverse]
        exact hfound index List.mem_cons_self
      · exact fun candidate hcandidate => .inl (hbefore candidate hcandidate index List.mem_cons_self)

theorem chain_none (candidates : List MatchCandidate) (rounds : Nat) :
    chain candidates rounds none = [] := by
  cases rounds with
  | zero => rfl
  | succ rounds => rfl

theorem chain_spec (h : anchors.Chained) {rounds i : Nat} {candidate : MatchCandidate}
    (hi : anchors.candidates[i]? = some candidate) :
    (chain anchors.candidates rounds (some i)).Pairwise (fun a b => b.1 < a.1 ∧ b.2 < a.2)
      ∧ ∀ pair ∈ chain anchors.candidates rounds (some i),
        (∃ c ∈ anchors.candidates, pair = (c.before, c.after))
          ∧ pair.1 ≤ candidate.before ∧ pair.2 ≤ candidate.after := by
  induction rounds generalizing i candidate with
  | zero => exact ⟨List.Pairwise.nil, nofun⟩
  | succ rounds ih =>
    have hmem := List.mem_of_getElem? hi
    rw [chain, show (some i).bind (fun i => anchors.candidates[i]?) = some candidate from hi]
    dsimp only
    cases hprevious : candidate.previous with
    | none =>
      rw [chain_none, List.forall_mem_singleton]
      exact ⟨List.pairwise_singleton _ _, ⟨candidate, hmem, rfl⟩, le_rfl, le_rfl⟩
    | some p =>
      obtain ⟨earlier, hearlier, hbefore, hafter⟩ := h.previous candidate hmem p hprevious
      obtain ⟨hfalls, hinside⟩ := ih hearlier
      rw [List.pairwise_cons, List.forall_mem_cons]
      refine ⟨⟨fun pair hpair => ?_, hfalls⟩, ⟨⟨candidate, hmem, rfl⟩, le_rfl, le_rfl⟩,
        fun pair hpair => ?_⟩
      · obtain ⟨-, hle, hle'⟩ := hinside pair hpair
        exact ⟨by dsimp only; omega, by dsimp only; omega⟩
      · obtain ⟨hcandidate, hle, hle'⟩ := hinside pair hpair
        exact ⟨hcandidate, by omega, by omega⟩

theorem chain_within (h : anchors.Chained)
    (hinside : ∀ candidate ∈ anchors.candidates, region.Has (candidate.before, candidate.after))
    (rounds : Nat) :
    Within region (chain anchors.candidates rounds anchors.tails.getLast?).reverse := by
  cases hlast : anchors.tails.getLast? with
  | none =>
    rw [chain_none]
    exact within_nil region
  | some tail =>
    rw [List.getLast?_eq_getElem?] at hlast
    obtain ⟨candidate, hcandidate, -⟩ := h.tails _ tail hlast
    obtain ⟨hfalls, hpairs⟩ := @chain_spec anchors h rounds tail candidate hcandidate
    constructor
    · unfold Growing
      rw [List.pairwise_reverse]
      exact hfalls
    · intro pair hpair
      obtain ⟨⟨c, hc, rfl⟩, -⟩ := hpairs pair (List.mem_reverse.mp hpair)
      exact hinside c hc

theorem identityAnchors_within (before after : List (Value τ)) (region : Region) :
    Within region (identityAnchors before after region) := by
  have hrange : (List.range' region.afterStart (region.afterEnd - region.afterStart)).Pairwise
      (· < ·) := List.pairwise_lt_range'
  have hinside : ∀ {i}, i ∈ List.range' region.afterStart (region.afterEnd - region.afterStart) →
      region.afterStart ≤ i ∧ i < region.afterEnd := by
    intro i hi
    have hi := List.mem_range'_1.mp hi
    omega
  unfold identityAnchors
  dsimp only
  split
  · obtain ⟨hgrowing, hpairs⟩ := @greedyAnchors_spec τ _
      (positionsOf (slice before region.beforeStart region.beforeEnd) region.beforeStart) after _ 0
      hrange
    refine ⟨hgrowing, fun pair hpair => ?_⟩
    obtain ⟨-, hindex, places, hplaces, hmem⟩ := hpairs pair hpair
    have hbefore := (region_positions hplaces).2 _ hmem
    exact ⟨hbefore.1, hbefore.2, hinside hindex⟩
  split
  · exact within_nil region
  · have hempty : Anchors.Chained ⟨[], [], []⟩ := by
      refine ⟨rfl, fun _ _ hget => ?_, nofun⟩
      rw [List.getElem?_nil] at hget
      cases hget
    obtain ⟨hchained, hcandidates⟩ := foldl_addAll_spec
      (P := fun candidate => region.Has (candidate.before, candidate.after)) hempty hrange
      (fun index _ => (region_found before region (itemAt after index)).1)
      nofun nofun
      (fun candidate hafter hmem =>
        have hbefore := (region_found before region (itemAt after candidate.after)).2 _ hmem
        ⟨hbefore.1, hbefore.2, hinside hafter⟩)
    exact chain_within hchained hcandidates _

/-! ## Elements that look alike -/

omit [DecidableEq τ] in
theorem lcsWalk_spec (equal : Value τ → Value τ → Bool) (before after : List (Value τ))
    (table : List (List Nat)) (rounds left right : Nat) :
    Growing (lcsWalk equal before after table rounds left right)
      ∧ ∀ pair ∈ lcsWalk equal before after table rounds left right,
        left ≤ pair.1 ∧ pair.1 < before.length ∧ right ≤ pair.2 ∧ pair.2 < after.length := by
  induction rounds generalizing left right with
  | zero => exact ⟨List.Pairwise.nil, nofun⟩
  | succ rounds ih =>
    rw [lcsWalk]
    split
    · next hinside =>
      split
      · obtain ⟨hgrowing, hpairs⟩ := ih (left + 1) (right + 1)
        constructor
        · apply growing_cons hgrowing
          intro other hother
          have hother := hpairs other hother
          exact ⟨by dsimp only; omega, by dsimp only; omega⟩
        · intro pair hpair
          rcases List.mem_cons.mp hpair with rfl | hpair
          · exact ⟨le_rfl, hinside.1, le_rfl, hinside.2⟩
          · have hpair := hpairs pair hpair
            omega
      · split
        · obtain ⟨hgrowing, hpairs⟩ := ih (left + 1) right
          refine ⟨hgrowing, fun pair hpair => ?_⟩
          have hpair := hpairs pair hpair
          omega
        · obtain ⟨hgrowing, hpairs⟩ := ih left (right + 1)
          refine ⟨hgrowing, fun pair hpair => ?_⟩
          have hpair := hpairs pair hpair
          omega
    · exact ⟨List.Pairwise.nil, nofun⟩

omit [DecidableEq τ] in
theorem lcsMatches_spec {equal : Value τ → Value τ → Bool} {before after : List (Value τ)}
    {maxCells : Nat} {pairs : List ArrayMatch}
    (h : lcsMatches before after equal maxCells = some pairs) :
    Growing pairs ∧ ∀ pair ∈ pairs, pair.1 < before.length ∧ pair.2 < after.length := by
  unfold lcsMatches at h
  split at h
  · cases h
    exact ⟨List.Pairwise.nil, nofun⟩
  split at h
  · cases h
  · cases h
    obtain ⟨hgrowing, hpairs⟩ := lcsWalk_spec equal before after (lcsTable equal after before)
      (before.length + after.length) 0 0
    refine ⟨hgrowing, fun pair hpair => ?_⟩
    have hpair := hpairs pair hpair
    exact ⟨hpair.2.1, hpair.2.2.2⟩

omit [DecidableEq τ] in
theorem semantic_within {before after : List (Value τ)} {region : Region} {pairs : List ArrayMatch}
    {equal : Value τ → Value τ → Bool} {maxCells : Nat}
    (h : lcsMatches (slice before region.beforeStart region.beforeEnd)
      (slice after region.afterStart region.afterEnd) equal maxCells = some pairs) :
    Within region (pairs.map fun pair =>
      (region.beforeStart + pair.1, region.afterStart + pair.2)) := by
  obtain ⟨hgrowing, hpairs⟩ := lcsMatches_spec h
  have hbefore := slice_length_le before region.beforeStart region.beforeEnd
  have hafter := slice_length_le after region.afterStart region.afterEnd
  constructor
  · unfold Growing
    rw [List.pairwise_map]
    exact hgrowing.imp fun hab => ⟨by omega, by omega⟩
  · intro pair hpair
    obtain ⟨inner, hinner, rfl⟩ := List.mem_map.mp hpair
    have hinner := hpairs inner hinner
    refine ⟨?_, ?_, ?_, ?_⟩ <;> dsimp only <;> omega

theorem regionMatches_within (before after : List (Value τ)) (region : Region) :
    Within region (regionMatches before after region) := by
  have hpositional : Within region
      (if region.beforeEnd - region.beforeStart = region.afterEnd - region.afterStart then
        positionalMatches before after region else []) := by
    split
    · next hcount => exact positionalMatches_within before after region hcount
    · exact within_nil region
  have hsubsequence : Within region ((identitySubsequence before after region).getD []) := by
    cases hfound : identitySubsequence before after region with
    | none => exact within_nil region
    | some pairs => exact identitySubsequence_within hfound
  unfold regionMatches
  apply within_ite hpositional
  apply within_ite hsubsequence
  apply within_ite (identityAnchors_within before after region)
  cases hfound : lcsMatches (slice before region.beforeStart region.beforeEnd)
      (slice after region.afterStart region.afterEnd) semanticallyAligned maxSemanticCells with
  | none => exact within_nil region
  | some pairs => exact semantic_within hfound

/-! ## Orders -/

def unused (positions : List (Position τ)) : List Nat :=
  positions.flatMap fun entry => entry.indices.drop entry.used

omit [DecidableEq τ] in
theorem unused_cons (entry : Position τ) (positions : List (Position τ)) :
    unused (entry :: positions) = entry.indices.drop entry.used ++ unused positions :=
  List.flatMap_cons

theorem addPosition_unused (value : Value τ) (index : Nat) {positions : List (Position τ)}
    (hnone : ∀ entry ∈ positions, entry.used = 0) :
    (unused (addPosition value index positions)).Perm (index :: unused positions)
      ∧ ∀ entry ∈ addPosition value index positions, entry.used = 0 := by
  induction positions with
  | nil => exact ⟨List.Perm.refl _, List.forall_mem_singleton.mpr rfl⟩
  | cons entry positions ih =>
    rw [List.forall_mem_cons] at hnone
    rw [addPosition]
    split
    · rw [unused_cons, unused_cons, List.forall_mem_cons]
      refine ⟨?_, hnone⟩
      dsimp only
      rw [hnone.1, List.drop_zero, List.drop_zero, List.append_assoc]
      exact List.perm_middle
    · obtain ⟨hperm, hused⟩ := ih hnone.2
      rw [unused_cons, unused_cons, List.forall_mem_cons]
      exact ⟨(hperm.append_left _).trans List.perm_middle, hnone.1, hused⟩

theorem foldl_addPosition_unused (items : List (Value τ)) (start : Nat)
    {positions : List (Position τ)} (hnone : ∀ entry ∈ positions, entry.used = 0) :
    (unused ((items.zipIdx start).foldl
      (fun positions item => addPosition item.1 item.2 positions) positions)).Perm
      (List.range' start items.length ++ unused positions) := by
  induction items generalizing start positions with
  | nil => exact List.Perm.refl _
  | cons item items ih =>
    obtain ⟨hperm, hused⟩ := addPosition_unused item start hnone
    rw [List.zipIdx_cons, List.foldl_cons, List.length_cons, List.range'_succ]
    exact (ih (start + 1) hused).trans ((hperm.append_left _).trans List.perm_middle)

theorem takePosition_spec {value : Value τ} {positions positions' : List (Position τ)} {index : Nat}
    (h : takePosition value positions = some (index, positions')) :
    (unused positions).Perm (index :: unused positions')
      ∧ (∃ entry ∈ positions, index ∈ entry.indices ∧ entry.value.same value = true)
      ∧ ∀ entry' ∈ positions', ∃ entry ∈ positions, entry.value = entry'.value
        ∧ entry.indices = entry'.indices := by
  induction positions generalizing positions' with
  | nil => cases h
  | cons entry positions ih =>
    rw [takePosition] at h
    split at h
    · next hsame =>
      obtain ⟨found, hfound, heq⟩ := Option.map_eq_some_iff.mp h
      cases heq
      obtain ⟨hlt, hget⟩ := List.getElem?_eq_some_iff.mp hfound
      refine ⟨?_, ⟨entry, List.mem_cons_self, List.mem_of_getElem? hfound, hsame⟩, ?_⟩
      · rw [unused_cons, unused_cons, List.drop_eq_getElem_cons hlt, hget]
        exact List.Perm.refl _
      · rw [List.forall_mem_cons]
        exact ⟨⟨entry, List.mem_cons_self, rfl, rfl⟩,
          fun other hother => ⟨other, List.mem_cons_of_mem _ hother, rfl, rfl⟩⟩
    · obtain ⟨⟨found, rest⟩, hfound, heq⟩ := Option.map_eq_some_iff.mp h
      cases heq
      obtain ⟨hperm, ⟨taken, htaken, hindex⟩, hkept⟩ := ih hfound
      refine ⟨?_, ⟨taken, List.mem_cons_of_mem _ htaken, hindex⟩, ?_⟩
      · rw [unused_cons, unused_cons]
        exact (hperm.append_left _).trans List.perm_middle
      · rw [List.forall_mem_cons]
        refine ⟨⟨entry, List.mem_cons_self, rfl, rfl⟩, fun other hother => ?_⟩
        obtain ⟨old, hold, heq⟩ := hkept other hother
        exact ⟨old, List.mem_cons_of_mem _ hold, heq⟩

/-- What `index` stands for in `items` is the same as `value`, by an element they both are the
same as. -/
def Stands (items : List (Value τ)) (index : Nat) (value : Value τ) : Prop :=
  ∃ via ∈ items, ∃ item, items[index]? = some item ∧ via.same item = true ∧ via.same value = true

theorem takePositions_spec {items values : List (Value τ)} {positions : List (Position τ)}
    {order : List Nat} (hplaces : ∀ entry ∈ positions, Places items 0 entry)
    (h : takePositions positions values = some order) :
    (∃ rest, (unused positions).Perm (order ++ rest)) ∧ List.Forall₂ (Stands items) order values := by
  induction values generalizing positions order with
  | nil =>
    cases h
    exact ⟨⟨unused positions, List.Perm.refl _⟩, List.Forall₂.nil⟩
  | cons value values ih =>
    obtain ⟨⟨index, positions'⟩, htake, h⟩ := Option.bind_eq_some_iff.mp h
    obtain ⟨indices, hindices, h⟩ := Option.bind_eq_some_iff.mp h
    cases h
    obtain ⟨hperm, ⟨entry, hentry, hindex, hsame⟩, hkept⟩ := takePosition_spec htake
    have hplaces' : ∀ entry ∈ positions', Places items 0 entry := by
      intro entry' hentry'
      obtain ⟨old, hold, hvalue, heq⟩ := hkept entry' hentry'
      have hold := hplaces old hold
      exact ⟨hvalue ▸ hold.value, heq ▸ hold.growing, by rw [← hvalue, ← heq]; exact hold.inside⟩
    obtain ⟨⟨rest, hrest⟩, hstands⟩ := ih hplaces' hindices
    obtain ⟨-, item, hitem, hvia⟩ := (hplaces entry hentry).inside index hindex
    exact ⟨⟨rest, hperm.trans (hrest.cons index)⟩,
      List.Forall₂.cons ⟨entry.value, (hplaces entry hentry).value, item, hitem, hvia, hsame⟩ hstands⟩

theorem permutation_spec {before after : List (Value τ)} {order : List Nat}
    (h : permutation before after = some order) :
    assertPermutation order = .ok () ∧ order.length = before.length
      ∧ List.Forall₂ (Stands before) order after := by
  unfold permutation at h
  split at h
  · cases h
  · next hlength =>
    rw [not_not] at hlength
    obtain ⟨⟨rest, hperm⟩, hstands⟩ := takePositions_spec (positionsOf_places before 0) h
    have hcount : order.length = before.length := by
      rw [hstands.length_eq, hlength]
    have hall : (List.range' 0 before.length).Perm (order ++ rest) := by
      have hunused := foldl_addPosition_unused before 0
        (fun entry (hmem : entry ∈ ([] : List (Position τ))) => nomatch hmem)
      rw [show unused ([] : List (Position τ)) = [] from rfl, List.append_nil] at hunused
      exact hunused.symm.trans hperm
    refine ⟨assertPermutation_ok.mpr ⟨fun i hi => ?_, ?_⟩, hcount, hstands⟩
    · have hmem := hall.mem_iff.mpr (List.mem_append_left rest hi)
      rw [List.mem_range'_1] at hmem
      omega
    · have hnodup := hall.nodup_iff.mp List.nodup_range'
      exact (List.nodup_append.mp hnodup).1

end Finding

/-! ## Overlaps -/

/-- The last `n` units of `a` are the first of `b`. -/
def Overlaps (a b : Text) (n : Nat) : Prop :=
  n ≤ a.length ∧ n ≤ b.length ∧ a.drop (a.length - n) = b.take n

theorem indexOf_spec {text head : Text} {start k : Nat} (h : indexOf text head start = some k) :
    k ≤ text.length ∧ head <+: text.drop k
      ∧ ∀ j ≤ text.length, start ≤ j → head <+: text.drop j → k ≤ j := by
  obtain ⟨hat, hin, hfirst⟩ := List.find?_range_eq_some.mp h
  rw [Bool.and_eq_true, List.isPrefixOf_iff_prefix] at hat
  refine ⟨Nat.le_of_lt_succ (List.mem_range.mp hin), hat.2, fun j hj hstart hhead => ?_⟩
  by_contra hlt
  have hnot := hfirst j (Nat.lt_of_not_le hlt)
  simp [hstart, List.isPrefixOf_iff_prefix.mpr hhead] at hnot

/-- What is found overlaps, and no longer overlap that starts with the head was passed over. -/
theorem tryHead_longest {tail b : Text} {size candidates start n : Nat}
    (h : tryHead tail b (b.take size) candidates start = some n) :
    Overlaps tail b n ∧ (b.take size).length ≤ n
      ∧ ∀ m, Overlaps tail b m → size ≤ m → start ≤ tail.length - m → m ≤ n := by
  induction candidates generalizing start with
  | zero => cases h
  | succ candidates ih =>
    rw [tryHead] at h
    split at h
    · cases h
    · next k hk =>
      obtain ⟨hle, hhead, hfirst⟩ := indexOf_spec hk
      -- an overlap starts with the head, so it does not stand before `k`
      have hpast : ∀ m, Overlaps tail b m → size ≤ m → start ≤ tail.length - m →
          k ≤ tail.length - m := by
        intro m hm hsize hstart
        refine hfirst _ (Nat.sub_le _ _) hstart ?_
        rw [hm.2.2]
        exact List.take_prefix_take_left hsize
      split at h
      · next hfits =>
        cases h
        rw [Bool.and_eq_true, decide_eq_true_eq, decide_eq_true_eq] at hfits
        refine ⟨⟨Nat.sub_le _ _, hfits.1, ?_⟩, ?_, fun m hm hsize hstart => ?_⟩
        · rw [Nat.sub_sub_self hle]
          exact hfits.2
        · have hlength := hhead.length_le
          rwa [List.length_drop] at hlength
        · have hk := hpast m hm hsize hstart
          have hm := hm.1
          omega
      · next hmiss =>
        obtain ⟨hfound, hlength, hlongest⟩ := ih h
        refine ⟨hfound, hlength, fun m hm hsize hstart => hlongest m hm hsize ?_⟩
        have hk := hpast m hm hsize hstart
        refine Nat.lt_of_le_of_ne hk fun heq => hmiss ?_
        have hback : tail.length - k = m := by
          have := hm.1
          omega
        rw [hback, heq, Bool.and_eq_true, decide_eq_true_eq, decide_eq_true_eq]
        exact hm.2

/-- The part of `a` that is scanned. -/
def scanned (a : Text) (scan : Nat) : Text :=
  if a.length > scan then a.drop (a.length - scan) else a

theorem overlaps_scanned {a b : Text} {scan n : Nat} :
    Overlaps (scanned a scan) b n ↔ Overlaps a b n ∧ n ≤ scan := by
  unfold scanned
  split
  · next hlong =>
    have hlength : (a.drop (a.length - scan)).length = scan := by
      rw [List.length_drop]
      omega
    rw [Overlaps, hlength, List.drop_drop]
    constructor
    · rintro ⟨hscan, hb, hdrop⟩
      have hsum : a.length - scan + (scan - n) = a.length - n := by omega
      exact ⟨⟨by omega, hb, by rwa [hsum] at hdrop⟩, hscan⟩
    · rintro ⟨⟨-, hb, hdrop⟩, hscan⟩
      have hsum : a.length - scan + (scan - n) = a.length - n := by omega
      exact ⟨hscan, hb, by rwa [hsum]⟩
  · exact (and_iff_left_of_imp fun h => h.1.trans (Nat.le_of_not_lt ‹_›)).symm

theorem overlap_found (a b : Text) (scan probe maxCandidates : Nat) :
    overlap a b scan probe maxCandidates = 0 ∨ ∃ size,
      tryHead (scanned a scan) b (b.take size) maxCandidates 0
        = some (overlap a b scan probe maxCandidates) := by
  unfold overlap scanned
  split
  · exact .inl rfl
  · dsimp only
    split
    · next n h => exact .inr ⟨_, h⟩
    · split
      · exact .inl rfl
      · cases h : tryHead (if a.length > scan then a.drop (a.length - scan) else a) b (b.take 1)
            maxCandidates 0 with
        | none => exact .inl rfl
        | some n => exact .inr ⟨1, h⟩

theorem overlap_spec (a b : Text) (scan probe maxCandidates : Nat) :
    overlap a b scan probe maxCandidates ≤ a.length
      ∧ a.drop (a.length - overlap a b scan probe maxCandidates)
        = b.take (overlap a b scan probe maxCandidates) := by
  rcases overlap_found a b scan probe maxCandidates with hzero | ⟨size, hfound⟩
  · rw [hzero, Nat.sub_zero, List.drop_length, List.take_zero]
    exact ⟨Nat.zero_le _, rfl⟩
  · obtain ⟨hle, -, hdrop⟩ := (overlaps_scanned.mp (tryHead_longest hfound).1).1
    exact ⟨hle, hdrop⟩

/-- **The overlap** is one, and the longest that is scanned, where it is not zero. -/
theorem overlap_is_longest (a b : Text) (scan probe maxCandidates : Nat) :
    let n := overlap a b scan probe maxCandidates
    n ≤ min (min a.length b.length) scan ∧ a.drop (a.length - n) = b.take n
      ∧ (0 < n → ∀ m ≤ scan, m ≤ a.length → m ≤ b.length →
        a.drop (a.length - m) = b.take m → m ≤ n) := by
  intro n
  refine ⟨?_, (overlap_spec a b scan probe maxCandidates).2, ?_⟩
  · rcases overlap_found a b scan probe maxCandidates with hzero | ⟨size, hfound⟩
    · exact (Nat.le_of_eq hzero).trans (Nat.zero_le _)
    · obtain ⟨⟨ha, hb, -⟩, hscan⟩ := overlaps_scanned.mp (tryHead_longest hfound).1
      exact Nat.le_min.mpr ⟨Nat.le_min.mpr ⟨ha, hb⟩, hscan⟩
  · intro hpos m hscan ha hb hdrop
    rcases overlap_found a b scan probe maxCandidates with hzero | ⟨size, hfound⟩
    · exact absurd hzero (Nat.ne_of_gt hpos)
    · obtain ⟨-, hlength, hlongest⟩ := tryHead_longest hfound
      rcases Nat.lt_or_ge m size with hshort | hsize
      · refine le_trans ?_ hlength
        rw [List.length_take]
        exact Nat.le_min.mpr ⟨Nat.le_of_lt hshort, hb⟩
      · exact hlongest m (overlaps_scanned.mpr ⟨⟨ha, hb, hdrop⟩, hscan⟩) hsize (Nat.zero_le _)

end ThreeXhaust.Delta
