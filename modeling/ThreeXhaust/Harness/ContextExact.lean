import ThreeXhaust.Harness.Context
import ThreeXhaust.Lib.Run

/-!
# A kept context is the one that a new read derives

The fast path of a context range keeps the messages in two parts, those that later entries cannot
change (`settled`) and those behind the last assistant message, and the baseline while it is open.
`Derived` says that a range still is what deriving its entries gives, and `Exact` that its entries are
those that a scan within its bounds finds.
-/

namespace ThreeXhaust.Harness.Context

open Run

/-! ## Tool results -/

def StartsTurn (messages : List Message) : Prop := ∀ message ∈ messages.head?, message.isAssistant

theorem takeWhile_append_turn {rest more : List Message} (h : StartsTurn more) :
    (rest ++ more).takeWhile (fun message => !message.isAssistant)
      = rest.takeWhile fun message => !message.isAssistant := by
  induction rest with
  | nil =>
    cases more with
    | nil => rfl
    | cons message more =>
      have hassistant : message.isAssistant := h message rfl
      simp [hassistant]
  | cons message rest ih =>
    rw [List.cons_append, List.takeWhile_cons, List.takeWhile_cons, ih]

theorem orderToolResults_append {messages more : List Message} (h : StartsTurn more) :
    orderToolResults (messages ++ more) = orderToolResults messages ++ orderToolResults more := by
  induction messages with
  | nil => rfl
  | cons message rest ih =>
    rw [List.cons_append, orderToolResults, orderToolResults]
    cases message.body with
    | system _ => simp [ih]
    | user _ => simp [ih]
    | toolResult _ _ => simp [ih]
    | assistant stopReason calls timestamp payload =>
      simp only [callResults, takeWhile_append_turn h, ih, List.cons_append, List.append_assoc]

/-- `settled` is ordered for good: whatever follows changes what comes from `opened` only. -/
def Splits (messages settled opened : List Message) : Prop :=
  ∀ more, orderToolResults (messages ++ more) = settled ++ orderToolResults (opened ++ more)

theorem Splits.refl (messages : List Message) : Splits messages [] messages := fun _ => rfl

theorem Splits.append {messages settled opened : List Message} (h : Splits messages settled opened)
    (added : List Message) : Splits (messages ++ added) settled (opened ++ added) := by
  intro more
  rw [List.append_assoc, List.append_assoc]
  exact h (added ++ more)

theorem Splits.ordered {messages settled opened : List Message} (h : Splits messages settled opened) :
    settled ++ orderToolResults opened = orderToolResults messages := by
  have hnil := h []
  rw [List.append_nil, List.append_nil] at hnil
  exact hnil.symm

theorem Splits.settle {messages settled opened : List Message} (h : Splits messages settled opened) :
    Splits messages (Context.settle settled opened).1 (Context.settle settled opened).2 := by
  unfold Context.settle
  cases hlast : (Splice.positions (·.isAssistant) opened).getLast? with
  | none => exact h
  | some last =>
    cases last with
    | zero => exact h
    | succ last =>
      obtain ⟨message, hmessage, hassistant⟩ :=
        Splice.mem_positions.mp (List.mem_of_getLast? hlast)
      intro more
      -- what is left of `opened` starts with the last assistant message
      have hturn : StartsTurn (opened.drop (last + 1) ++ more) := by
        intro first hfirst
        rw [List.head?_append, List.head?_drop, hmessage, Option.some_or, Option.mem_some_iff] at hfirst
        exact hfirst ▸ hassistant
      have hsplit : opened ++ more = opened.take (last + 1) ++ (opened.drop (last + 1) ++ more) := by
        rw [← List.append_assoc, List.take_append_drop]
      show _ = (settled ++ orderToolResults (opened.take (last + 1)))
        ++ orderToolResults (opened.drop (last + 1) ++ more)
      rw [h more, hsplit, orderToolResults_append hturn, List.append_assoc]

/-! ## Deriving more entries -/

theorem findBaseline_append (head : Option HeadMarker) (entries added : List Entry) :
    findBaseline head (entries ++ added)
      = (findBaseline head entries).orElse (findBaseline head added) := by
  induction entries with
  | nil => rfl
  | cons entry rest ih =>
    rw [List.cons_append, findBaseline, findBaseline]
    by_cases hbefore : (head.any fun marker => entry.id ≤ marker.entry.id) = true
    · rw [if_pos hbefore, if_pos hbefore, ih]
    · rw [if_neg hbefore, if_neg hbefore]
      by_cases hsystem : isSystemEntry entry = true
      · rw [if_pos hsystem, if_pos hsystem]
        cases entry.model.bind (·.find? (·.isSystem)) with
        | none => rfl
        | some message => rfl
      · rw [if_neg hsystem, if_neg hsystem]
        by_cases hcarries : (head.isNone && carriesSystemMessage entry) = true
        · rw [if_pos hcarries, if_pos hcarries]
          rfl
        · rw [if_neg hcarries, if_neg hcarries, ih]

theorem selectActive_append (head : Option HeadMarker) (entries : List Entry) {added : List Entry}
    (h : ∀ entry ∈ added, entry.head.isNone) :
    selectActive head (entries ++ added) = selectActive head entries ++ added := by
  cases head with
  | none => rfl
  | some marker =>
    have hadded : added.filter (·.head.isNone) = added := List.filter_eq_self.mpr h
    simp only [selectActive, List.filter_append, hadded, List.cons_append]

theorem editsOf_append (entries : List Entry) {added : List Entry}
    (h : ∀ entry ∈ added, entry.edits = none) : editsOf (entries ++ added) = editsOf entries := by
  have hnone : editsOf added = [] := by
    apply List.flatMap_eq_nil_iff.mpr
    intro entry hentry
    rw [h entry hentry]
    rfl
  rw [editsOf, List.flatMap_append, ← editsOf, ← editsOf, hnone, List.append_nil]

theorem editFor_eq_none {edits : List ContextEdit} {id : Nat} (h : id ∉ edits.map (·.target)) :
    editFor edits id = none := by
  apply List.find?_eq_none.mpr
  intro edit hedit heq
  exact h (List.mem_map.mpr ⟨edit, List.mem_reverse.mp hedit, by simpa using heq⟩)

structure Derived (range : Range) : Prop where
  view : range.view = (deriveRange range.bounds range.entries false).view
  edited : range.edited = (editsOf range.entries).map (·.target)
  splits : Splits range.view.contributions.flatten range.settled range.opened
  baseline : range.baseline = findBaseline range.bounds.head range.view.entries

theorem deriveRange_derived (bounds : Bounds) (entries : List Entry) (current : Bool) :
    Derived (deriveRange bounds entries current) where
  view := rfl
  edited := rfl
  splits := (Splits.refl _).settle
  baseline := rfl

/-- **The fast path** derives what the slow one does. -/
theorem extendRange_derived {previous : Range} (h : Derived previous) {bounds : Bounds}
    (hhead : bounds.head = previous.bounds.head) (added : List Entry) (current : Bool) :
    Derived (extendRange previous bounds added current) := by
  unfold extendRange
  by_cases hreopens : added.any (reopens previous.edited) = true
  · dsimp only
    rw [if_pos hreopens]
    exact deriveRange_derived _ _ _
  · dsimp only
    rw [if_neg hreopens]
    -- no added entry edits, is a head marker or was edited before
    have hplain : ∀ entry ∈ added, entry.edits = none ∧ entry.head.isNone
        ∧ entry.id ∉ (editsOf previous.entries).map (·.target) := by
      intro entry hentry
      have hnot : ¬ reopens previous.edited entry := by
        intro hopen
        exact hreopens (List.any_eq_true.mpr ⟨entry, hentry, hopen⟩)
      rw [reopens, h.edited] at hnot
      simpa [and_assoc] using hnot
    have hedits : editsOf (previous.entries ++ added) = editsOf previous.entries :=
      editsOf_append _ fun entry hentry => (hplain entry hentry).1
    have hactive : selectActive bounds.head (previous.entries ++ added)
        = previous.view.entries ++ added := by
      rw [selectActive_append _ _ fun entry hentry => (hplain entry hentry).2.1, h.view, hhead]
      rfl
    have hcontributions : (selectActive bounds.head (previous.entries ++ added)).map
          (fun entry => contribute entry (editFor (editsOf (previous.entries ++ added)) entry.id))
        = previous.view.contributions ++ added.map fun entry => contribute entry none := by
      rw [hactive, List.map_append, hedits]
      congr 1
      · rw [h.view]
        rfl
      · apply List.map_congr_left
        intro entry hentry
        rw [editFor_eq_none (hplain entry hentry).2.2]
    have hbaseline : previous.baseline.orElse (findBaseline bounds.head added)
        = findBaseline bounds.head (previous.view.entries ++ added) := by
      rw [findBaseline_append, h.baseline, hhead]
    have hsplits : Splits (previous.view.contributions
          ++ added.map fun entry => contribute entry none).flatten
        (settle previous.settled (previous.opened
          ++ (added.map fun entry => contribute entry none).flatten)).1
        (settle previous.settled (previous.opened
          ++ (added.map fun entry => contribute entry none).flatten)).2 := by
      rw [List.flatten_append]
      exact (h.splits.append _).settle
    refine ⟨?_, ?_, hsplits, hbaseline⟩
    · show View.mk _ _ _ _ = View.mk _ _ _ _
      rw [View.mk.injEq]
      refine ⟨rfl, hactive.symm, hcontributions.symm, ?_⟩
      rw [hbaseline, hcontributions, hactive, hsplits.ordered, ((Splits.refl _).settle).ordered]
    · show previous.edited = (editsOf (previous.entries ++ added)).map (·.target)
      rw [hedits, h.edited]

theorem extendRange_bounds (previous : Range) (bounds : Bounds) (added : List Entry) (current : Bool) :
    (extendRange previous bounds added current).bounds = bounds := by
  unfold extendRange
  dsimp only
  split
  · rfl
  · rfl

theorem extendRange_entries (previous : Range) (bounds : Bounds) (added : List Entry) (current : Bool) :
    (extendRange previous bounds added current).entries = previous.entries ++ added := by
  unfold extendRange
  dsimp only
  split
  · rfl
  · rfl

/-! ## Scans -/

theorem filter_or {α : Type} {p q : α → Bool} {xs : List α}
    (h : xs.Pairwise fun x y => q x → ¬ p y) (hpq : ∀ x, q x → ¬ p x) :
    xs.filter (fun x => p x || q x) = xs.filter p ++ xs.filter q := by
  induction xs with
  | nil => rfl
  | cons x rest ih =>
    rw [List.pairwise_cons] at h
    by_cases hq : q x = true
    · have hp : p x = false := by simpa using hpq x hq
      have hnone : rest.filter p = [] := List.filter_eq_nil_iff.mpr fun y hy => h.1 y hy hq
      have hrest := ih h.2
      rw [hnone, List.nil_append] at hrest
      rw [List.filter_cons_of_pos (by simp [hq]), List.filter_cons_of_neg (by simp [hp]),
        List.filter_cons_of_pos hq, hnone, hrest, List.nil_append]
    · by_cases hp : p x = true
      · rw [List.filter_cons_of_pos (by simp [hp]), List.filter_cons_of_pos hp,
          List.filter_cons_of_neg hq, ih h.2, List.cons_append]
      · rw [List.filter_cons_of_neg (by simp [hp, hq]), List.filter_cons_of_neg hp,
          List.filter_cons_of_neg hq, ih h.2]

def Ascending (log : List Entry) : Prop := log.Pairwise (·.id < ·.id)

def HeadsBack (log : List Entry) : Prop := ∀ entry ∈ log, ∀ head, entry.head = some head → head ≤ entry.id

section Scan

variable {log added : List Entry} {least mid most : Nat}

theorem scanRange_split (hlog : Ascending log) (hleast : least ≤ mid + 1) (hmost : mid ≤ most) :
    scanRange log least most = scanRange log least mid ++ scanRange log (mid + 1) most := by
  unfold scanRange
  rw [← filter_or]
  · apply List.filter_congr
    intro entry _
    by_cases hmid : entry.id ≤ mid
    · have h1 : entry.id ≤ most := by omega
      have h2 : ¬ mid + 1 ≤ entry.id := by omega
      simp [hmid, h1, h2]
    · have h1 : least ≤ entry.id := by omega
      have h2 : mid + 1 ≤ entry.id := by omega
      simp [hmid, h1, h2]
  · refine hlog.imp ?_
    intro x y hlt hx hy
    simp only [Bool.and_eq_true, decide_eq_true_eq] at hx hy
    omega
  · intro x hx hp
    simp only [Bool.and_eq_true, decide_eq_true_eq] at hx hp
    omega

theorem scanRange_append_left (h : ∀ entry ∈ added, most < entry.id) :
    scanRange (log ++ added) least most = scanRange log least most := by
  have hnone : scanRange added least most = [] := by
    apply List.filter_eq_nil_iff.mpr
    intro entry hentry
    have := h entry hentry
    simp only [Bool.and_eq_true, decide_eq_true_eq]
    omega
  rw [scanRange, List.filter_append, ← scanRange, ← scanRange, hnone, List.append_nil]

theorem scanRange_append_right (hlog : ∀ entry ∈ log, entry.id < least)
    (hadded : ∀ entry ∈ added, least ≤ entry.id ∧ entry.id ≤ most) :
    scanRange (log ++ added) least most = added := by
  have hnone : scanRange log least most = [] := by
    apply List.filter_eq_nil_iff.mpr
    intro entry hentry
    have := hlog entry hentry
    simp only [Bool.and_eq_true, decide_eq_true_eq]
    omega
  have hall : scanRange added least most = added := by
    apply List.filter_eq_self.mpr
    intro entry hentry
    simp [hadded entry hentry]
  rw [scanRange, List.filter_append, ← scanRange, ← scanRange, hnone, hall, List.nil_append]

end Scan

/-! ## Head markers -/

theorem HeadMarker.ext_entry {marker marker' : HeadMarker} (h : marker.entry = marker'.entry) :
    marker = marker' := by
  obtain ⟨entry, head, hmarked⟩ := marker
  obtain ⟨entry', head', hmarked'⟩ := marker'
  subst h
  rw [hmarked, Option.some.injEq] at hmarked'
  subst hmarked'
  rfl

theorem Entry.marker_entry {entry : Entry} {marker : HeadMarker} (h : entry.marker = some marker) :
    marker.entry = entry := by
  unfold Entry.marker at h
  split at h
  · cases h
  · cases h
    rfl

theorem newestMarker_append (before : Option HeadMarker) (entries added : List Entry) :
    newestMarker before (entries ++ added) = newestMarker (newestMarker before entries) added :=
  List.foldl_append

theorem newestMarker_cases (before : Option HeadMarker) (entries : List Entry) :
    newestMarker before entries = before
      ∨ ∃ marker, newestMarker before entries = some marker ∧ marker.entry ∈ entries := by
  induction entries generalizing before with
  | nil => exact .inl rfl
  | cons entry rest ih =>
    rw [newestMarker, List.foldl_cons, ← newestMarker]
    rcases ih (entry.marker.or before) with hsame | ⟨marker, hmarker, hmem⟩
    · rw [hsame]
      cases hentry : entry.marker with
      | none => exact .inl rfl
      | some marker => exact .inr ⟨marker, rfl, Entry.marker_entry hentry ▸ List.mem_cons_self⟩
    · exact .inr ⟨marker, hmarker, List.mem_cons_of_mem _ hmem⟩

theorem boundsAt_marker {log : List Entry} {tail : Nat} {marker : HeadMarker}
    (h : (boundsAt log tail).head = some marker) : marker.entry ∈ log ∧ marker.entry.id ≤ tail := by
  have hmem : marker.entry ∈ log.filter fun entry => entry.id ≤ tail := by
    rcases newestMarker_cases none (log.filter fun entry => entry.id ≤ tail) with hnone | ⟨found, hf, hm⟩
    · rw [show (boundsAt log tail).head = newestMarker none _ from rfl, hnone] at h
      cases h
    · rw [show (boundsAt log tail).head = newestMarker none _ from rfl, hf, Option.some.injEq] at h
      exact h ▸ hm
  simpa using List.mem_filter.mp hmem

theorem boundsAt_least {log : List Entry} (hback : HeadsBack log) (tail : Nat) :
    (boundsAt log tail).least ≤ tail := by
  unfold Bounds.least
  cases hhead : (boundsAt log tail).head with
  | none => exact Nat.zero_le _
  | some marker =>
    obtain ⟨hmem, hle⟩ := boundsAt_marker hhead
    exact (hback _ hmem _ marker.marked).trans hle

theorem Ascending.eq_of_id {log : List Entry} (h : Ascending log) {entry entry' : Entry}
    (hentry : entry ∈ log) (hentry' : entry' ∈ log) (hid : entry.id = entry'.id) : entry = entry' := by
  have hn : (log.map (·.id)).Nodup := by
    rw [List.nodup_iff_pairwise_ne, List.pairwise_map]
    exact h.imp fun hlt => Nat.ne_of_lt hlt
  exact List.inj_on_of_nodup_map hn hentry hentry' hid

theorem marker_eq {log : List Entry} (hlog : Ascending log) {bounds bounds' : Bounds}
    (h : ∀ marker, bounds.head = some marker → marker.entry ∈ log)
    (h' : ∀ marker, bounds'.head = some marker → marker.entry ∈ log)
    (hid : bounds.markerId = bounds'.markerId) : bounds.head = bounds'.head := by
  unfold Bounds.markerId at hid
  cases hhead : bounds.head with
  | none =>
    rw [hhead] at hid
    exact (Option.map_eq_none_iff.mp hid.symm).symm
  | some marker =>
    rw [hhead] at hid
    obtain ⟨marker', hhead', heq⟩ := Option.map_eq_some_iff.mp hid.symm
    rw [hhead', Option.some.injEq]
    apply HeadMarker.ext_entry
    exact hlog.eq_of_id (h marker hhead) (h' marker' hhead') heq.symm

/-! ## Exact ranges -/

/-- A range of a history: what a scan within its bounds finds, and what that derives. -/
structure Exact (log : List Entry) (range : Range) : Prop where
  derived : Derived range
  entries : range.entries = scanBounds log range.bounds
  bounds : range.bounds = boundsAt log range.bounds.tail
  tail : ∃ entry ∈ log, entry.id = range.bounds.tail

def Newest (log : List Entry) (range : Range) : Prop := ∀ entry ∈ log, entry.id ≤ range.bounds.tail

section Exact

variable {log added : List Entry} {range : Range}

/-- **The view of an exact range** is the one that is derived from scratch. -/
theorem Exact.view_eq (h : Exact log range) : range.view = deriveContext log range.bounds := by
  rw [h.derived.view, h.entries]
  rfl

theorem Exact.marker_mem (h : Exact log range) {marker : HeadMarker}
    (hmarker : range.bounds.head = some marker) : marker.entry ∈ log := by
  rw [h.bounds] at hmarker
  exact (boundsAt_marker hmarker).1

theorem filter_le_append {tail : Nat} (hadded : ∀ entry ∈ added, tail < entry.id) :
    (log ++ added).filter (fun entry => entry.id ≤ tail) = log.filter fun entry => entry.id ≤ tail := by
  have hnone : added.filter (fun entry => decide (entry.id ≤ tail)) = [] := by
    apply List.filter_eq_nil_iff.mpr
    intro entry hentry
    have := hadded entry hentry
    simp only [decide_eq_true_eq]
    omega
  rw [List.filter_append, hnone, List.append_nil]

theorem boundsAt_append {tail : Nat} (hadded : ∀ entry ∈ added, tail < entry.id) :
    boundsAt (log ++ added) tail = boundsAt log tail := by
  rw [boundsAt, boundsAt, filter_le_append hadded]

theorem Exact.append (h : Exact log range) (hadded : ∀ entry ∈ added, range.bounds.tail < entry.id) :
    Exact (log ++ added) range where
  derived := h.derived
  entries := by
    rw [h.entries, scanBounds, scanBounds, scanRange_append_left hadded]
  bounds := by
    rw [boundsAt_append hadded]
    exact h.bounds
  tail := by
    obtain ⟨entry, hentry, hid⟩ := h.tail
    exact ⟨entry, List.mem_append_left _ hentry, hid⟩

theorem Exact.setCurrent (h : Exact log range) (current : Bool) :
    Exact log { range with current := current } :=
  ⟨⟨h.derived.view, h.derived.edited, h.derived.splits, h.derived.baseline⟩, h.entries, h.bounds, h.tail⟩

theorem Exact.newest_head (h : Exact log range) (hnewest : Newest log range) :
    range.bounds.head = newestMarker none log := by
  have hall : log.filter (fun entry => decide (entry.id ≤ range.bounds.tail)) = log :=
    List.filter_eq_self.mpr fun entry hentry => by simpa using hnewest entry hentry
  rw [h.bounds]
  show newestMarker none (log.filter fun entry => decide (entry.id ≤ range.bounds.tail)) = _
  rw [hall]

/-- **A range grows** by what a scan behind its tail finds, under the same head marker. -/
theorem Exact.extend (hlog : Ascending log) (hback : HeadsBack log) (h : Exact log range) {tail : Nat}
    (htail : ∃ entry ∈ log, entry.id = tail) (hle : range.bounds.tail ≤ tail)
    (hmarker : range.bounds.markerId = (boundsAt log tail).markerId) (current : Bool) :
    Exact log (extendRange range (boundsAt log tail)
      (scanRange log (range.bounds.tail + 1) tail) current) := by
  have hhead : (boundsAt log tail).head = range.bounds.head :=
    marker_eq hlog (fun _ hm => (boundsAt_marker hm).1) (fun _ hm => h.marker_mem hm) hmarker.symm
  have hleast : (boundsAt log tail).least = range.bounds.least := by
    rw [Bounds.least, hhead, Bounds.least]
  have hfrom : range.bounds.least ≤ range.bounds.tail := by
    have hbound := boundsAt_least hback range.bounds.tail
    rwa [← h.bounds] at hbound
  refine ⟨extendRange_derived h.derived hhead _ _, ?_, ?_, ?_⟩
  · rw [extendRange_bounds, extendRange_entries, scanBounds, hleast]
    show _ = scanRange log range.bounds.least tail
    rw [scanRange_split hlog (Nat.le_succ_of_le hfrom) hle, h.entries]
    rfl
  · rw [extendRange_bounds]
    rfl
  · rw [extendRange_bounds]
    exact htail

/-- **A range starts later** under a newer head marker. -/
theorem Exact.advanceHead (h : Exact log range) (hnewest : Newest log range) {last : Nat}
    (hadded : ∀ entry ∈ added, entry.id ≤ last) (hle : range.bounds.tail ≤ last)
    (htail : ∃ entry ∈ log ++ added, entry.id = last) {marker : HeadMarker}
    (hhead : (boundsAt (log ++ added) last).head = some marker)
    (hfrom : range.bounds.least ≤ marker.head) (current : Bool) :
    Exact (log ++ added) (deriveRange (boundsAt (log ++ added) last)
      ((range.entries ++ added).filter fun entry => marker.head ≤ entry.id) current) := by
  refine ⟨deriveRange_derived _ _ _, ?_, rfl, htail⟩
  have hleast : (boundsAt (log ++ added) last).least = marker.head := by rw [Bounds.least, hhead]
  show (range.entries ++ added).filter (fun entry => decide (marker.head ≤ entry.id))
    = scanRange (log ++ added) (boundsAt (log ++ added) last).least last
  rw [hleast, h.entries, scanBounds, scanRange, scanRange, List.filter_append, List.filter_append,
    List.filter_filter]
  congr 1
  · apply List.filter_congr
    intro entry hentry
    have h1 := hnewest entry hentry
    have h2 : entry.id ≤ last := h1.trans hle
    by_cases hge : marker.head ≤ entry.id
    · have h3 : range.bounds.least ≤ entry.id := hfrom.trans hge
      simp [hge, h1, h2, h3]
    · simp [hge]
  · apply List.filter_congr
    intro entry hentry
    simp [hadded entry hentry]

theorem Ascending.le_last {last : Entry} (h : Ascending log) (hlast : log.getLast? = some last)
    {entry : Entry} (hentry : entry ∈ log) : entry.id ≤ last.id := by
  obtain ⟨front, rfl⟩ := List.getLast?_eq_some_iff.mp hlast
  rcases List.mem_append.mp hentry with hfront | heq
  · exact Nat.le_of_lt ((List.pairwise_append.mp h).2.2 entry hfront last List.mem_cons_self)
  · rw [List.mem_singleton.mp heq]

/-- **Entries of a commit** extend a range that is current, and leave any other. -/
theorem advanceRange_exact {range' : Range} (hlog : Ascending (log ++ added))
    (hback : HeadsBack (log ++ added)) (h : Exact log range)
    (hnewest : range.current → Newest log range) (hadvance : advanceRange range added = some range') :
    Exact (log ++ added) range' ∧ (range'.current → Newest (log ++ added) range') := by
  have hbehind : ∀ entry ∈ added, range.bounds.tail < entry.id := by
    intro entry hentry
    obtain ⟨old, hold, hid⟩ := h.tail
    exact hid ▸ (List.pairwise_append.mp hlog).2.2 old hold entry hentry
  unfold advanceRange at hadvance
  cases hlast : added.getLast? with
  | none =>
    rw [hlast] at hadvance
    cases hadvance
    rw [List.getLast?_eq_none_iff.mp hlast, List.append_nil]
    exact ⟨h, hnewest⟩
  | some last =>
    rw [hlast] at hadvance
    simp only at hadvance
    by_cases hcurrent : range.current
    case neg =>
      simp only [hcurrent] at hadvance
      cases hadvance
      exact ⟨h.append hbehind, fun hc => absurd hc hcurrent⟩
    case pos =>
      have hnew := hnewest hcurrent
      have hlastMem : last ∈ added := List.mem_of_getLast? hlast
      have hmost : ∀ entry ∈ log ++ added, entry.id ≤ last.id := by
        intro entry hentry
        apply hlog.le_last _ hentry
        rw [List.getLast?_append, hlast, Option.some_or]
      have hle : range.bounds.tail ≤ last.id := Nat.le_of_lt (hbehind last hlastMem)
      have htail : ∃ entry ∈ log ++ added, entry.id = last.id :=
        ⟨last, List.mem_append_right _ hlastMem, rfl⟩
      -- the bounds are those of the new history, at its newest entry
      have hbounds : (⟨newestMarker range.bounds.head added, last.id⟩ : Bounds)
          = boundsAt (log ++ added) last.id := by
        have hfilter : (log ++ added).filter (fun entry => decide (entry.id ≤ last.id)) = log ++ added :=
          List.filter_eq_self.mpr fun entry hentry => by simpa using hmost entry hentry
        rw [boundsAt, hfilter, newestMarker_append, h.newest_head hnew]
      have hadded : scanRange (log ++ added) (range.bounds.tail + 1) last.id = added := by
        apply scanRange_append_right
        · exact fun entry hentry => Nat.lt_succ_of_le (hnew entry hentry)
        · exact fun entry hentry => ⟨hbehind entry hentry, hmost entry (List.mem_append_right _ hentry)⟩
      simp only [hcurrent, Bool.not_true, Bool.false_eq_true, if_false] at hadvance
      rw [hbounds] at hadvance
      by_cases hmarker : (boundsAt (log ++ added) last.id).markerId = range.bounds.markerId
      · rw [if_pos hmarker, Option.some.injEq] at hadvance
        subst hadvance
        have hexact := (h.append hbehind).extend hlog hback htail hle hmarker.symm true
        rw [hadded] at hexact
        refine ⟨hexact, fun _ => ?_⟩
        unfold Newest
        rw [extendRange_bounds]
        exact hmost
      · rw [if_neg hmarker, show newestMarker range.bounds.head added
          = (boundsAt (log ++ added) last.id).head from congrArg Bounds.head hbounds] at hadvance
        cases hhead : (boundsAt (log ++ added) last.id).head with
        | none =>
          rw [hhead] at hadvance
          cases hadvance
        | some marker =>
          rw [hhead] at hadvance
          simp only at hadvance
          split at hadvance
          · cases hadvance
          · rename_i hstale
            rw [Option.some.injEq] at hadvance
            subst hadvance
            refine ⟨h.advanceHead hnew ?_ hle htail hhead ?_ true, fun _ => hmost⟩
            · exact fun entry hentry => hmost entry (List.mem_append_right _ hentry)
            · unfold Bounds.least
              cases hold : range.bounds.head with
              | none => exact Nat.zero_le _
              | some old =>
                rw [hold] at hstale
                simpa using hstale

/-- **A read** that starts from an earlier range, or from none. -/
theorem rangeFrom_exact (hlog : Ascending log) (hback : HeadsBack log) {previous : Option Range}
    (h : ∀ range, previous = some range → Exact log range) {bounds : Bounds}
    (hbounds : bounds = boundsAt log bounds.tail) (htail : ∃ entry ∈ log, entry.id = bounds.tail)
    (current : Bool) : Exact log (rangeFrom log previous bounds current) := by
  have hscratch : Exact log (deriveRange bounds (scanBounds log bounds) current) :=
    ⟨deriveRange_derived _ _ _, rfl, hbounds, htail⟩
  unfold rangeFrom
  cases previous with
  | none => exact hscratch
  | some range =>
    have hrange := h range rfl
    simp only
    by_cases hmarker : range.bounds.markerId ≠ bounds.markerId
    · rw [if_pos hmarker]
      exact hscratch
    · rw [if_neg hmarker]
      rw [ne_eq, not_not] at hmarker
      by_cases heq : bounds.tail = range.bounds.tail
      · rw [if_pos heq]
        exact hrange
      · rw [if_neg heq]
        by_cases hlt : bounds.tail < range.bounds.tail
        · rw [if_pos hlt]
          refine ⟨deriveRange_derived _ _ _, ?_, hbounds, htail⟩
          have hhead : bounds.head = range.bounds.head := by
            refine marker_eq hlog ?_ (fun _ hm => hrange.marker_mem hm) hmarker.symm
            intro marker hm
            rw [hbounds] at hm
            exact (boundsAt_marker hm).1
          have hleast : bounds.least = range.bounds.least := by
            rw [Bounds.least, hhead, Bounds.least]
          show range.entries.filter (fun entry => decide (entry.id ≤ bounds.tail))
            = scanRange log bounds.least bounds.tail
          rw [hrange.entries, scanBounds, scanRange, scanRange, List.filter_filter, hleast]
          apply List.filter_congr
          intro entry _
          by_cases hid : entry.id ≤ bounds.tail
          · have hid' : entry.id ≤ range.bounds.tail := by omega
            simp [hid, hid']
          · simp [hid]
        · rw [if_neg hlt]
          have hle : range.bounds.tail ≤ bounds.tail := by omega
          rw [hbounds] at hmarker
          have hexact := hrange.extend hlog hback htail hle hmarker current
          rw [← hbounds] at hexact
          exact hexact

theorem Exact.checked (h : Exact log range) (known : Bool) : Exact log (range.checked log known) := by
  unfold Range.checked
  split
  · exact h.setCurrent false
  · exact h

theorem checked_newest (hlog : Ascending log) (known : Bool)
    (hcurrent : (range.checked log known).current) : Newest log (range.checked log known) := by
  unfold Range.checked at hcurrent ⊢
  split at hcurrent
  · cases hcurrent
  · rename_i hcheck
    rw [if_neg hcheck]
    simp only [hcurrent, Bool.true_and, Bool.not_eq_true, Bool.not_eq_false', Bool.and_eq_true,
      decide_eq_true_eq] at hcheck
    obtain ⟨last, hlast, hid⟩ := Option.map_eq_some_iff.mp hcheck.2
    intro entry hentry
    rw [← hid]
    exact hlog.le_last hlast hentry

end Exact

/-! ## Every run -/

def Reading.Sound (log : List Entry) : Reading → Prop
  | .waiting _ previous => ∀ range, previous = some range → Exact log range
  | .scanning bounds previous _ => (∀ range, previous = some range → Exact log range)
    ∧ bounds = boundsAt log bounds.tail ∧ ∃ entry ∈ log, entry.id = bounds.tail
  | .returned range => Exact log range
  | .ended => True

structure Cache.Sound (c : Cache) : Prop where
  ascending : Ascending c.log
  counted : ∀ entry ∈ c.log, entry.id < c.nextId
  back : HeadsBack c.log
  kept : ∀ range, c.kept = some range → Exact c.log range ∧ (range.current → Newest c.log range)
  readings : ∀ reading ∈ c.readings, reading.Sound c.log

def headsBack (c : Cache) : Input → Prop
  | .commit drafts => HeadsBack (append c.nextId drafts)
  | _ => True

theorem Reading.Sound.append {log added : List Entry} {reading : Reading} (h : reading.Sound log)
    (hadded : ∀ old ∈ log, ∀ entry ∈ added, old.id < entry.id) : reading.Sound (log ++ added) := by
  have hexact : ∀ range, Exact log range → Exact (log ++ added) range := by
    intro range hrange
    apply hrange.append
    intro entry hentry
    obtain ⟨old, hold, hid⟩ := hrange.tail
    exact hid ▸ hadded old hold entry hentry
  cases reading with
  | waiting cut previous => exact fun range hrange => hexact range (h range hrange)
  | scanning bounds previous current =>
    obtain ⟨hprevious, hbounds, old, hold, hid⟩ := h
    refine ⟨fun range hrange => hexact range (hprevious range hrange), ?_, old,
      List.mem_append_left _ hold, hid⟩
    rw [boundsAt_append fun entry hentry => hid ▸ hadded old hold entry hentry]
    exact hbounds
  | returned range => exact hexact range h
  | ended => trivial

theorem append_counted (nextId : Nat) (drafts : List Draft) :
    Ascending (append nextId drafts)
      ∧ (∀ entry ∈ append nextId drafts, nextId ≤ entry.id ∧ entry.id < counterAfter nextId drafts)
      ∧ nextId ≤ counterAfter nextId drafts := by
  induction drafts generalizing nextId with
  | nil => exact ⟨List.Pairwise.nil, fun _ hentry => absurd hentry List.not_mem_nil, le_refl _⟩
  | cons draft drafts ih =>
    obtain ⟨hasc, hcounted, hle⟩ := ih (nextId + draft.skipped + 1)
    rw [append, counterAfter]
    refine ⟨List.pairwise_cons.mpr ⟨?_, hasc⟩, ?_, by omega⟩
    · intro entry hentry
      have := (hcounted entry hentry).1
      show nextId + draft.skipped < entry.id
      omega
    · intro entry hentry
      rcases List.mem_cons.mp hentry with rfl | hrest
      · constructor
        · show nextId ≤ nextId + draft.skipped
          omega
        · show nextId + draft.skipped < _
          omega
      · have := hcounted entry hrest
        omega

section Step

variable {c : Cache}

theorem Cache.Sound.commit (h : c.Sound) {drafts : List Draft} (hback : HeadsBack (append c.nextId drafts)) :
    (c.commit drafts).Sound := by
  obtain ⟨hasc, hcounted, hle⟩ := append_counted c.nextId drafts
  have hcross : ∀ old ∈ c.log, ∀ entry ∈ append c.nextId drafts, old.id < entry.id :=
    fun old hold entry hentry => (h.counted old hold).trans_le (hcounted entry hentry).1
  have hlog : Ascending (c.log ++ append c.nextId drafts) :=
    List.pairwise_append.mpr ⟨h.ascending, hasc, hcross⟩
  have hheads : HeadsBack (c.log ++ append c.nextId drafts) := by
    intro entry hentry
    rcases List.mem_append.mp hentry with hold | hnew
    · exact h.back entry hold
    · exact hback entry hnew
  constructor
  case ascending => exact hlog
  case counted =>
    intro entry hentry
    rcases List.mem_append.mp hentry with hold | hnew
    · exact (h.counted entry hold).trans_le hle
    · exact (hcounted entry hnew).2
  case back => exact hheads
  case kept =>
    intro range' hkept
    obtain ⟨range, hrange, hadvance⟩ := Option.bind_eq_some_iff.mp hkept
    obtain ⟨hexact, hnewest⟩ := h.kept range hrange
    exact advanceRange_exact hlog hheads hexact hnewest hadvance
  case readings => exact fun reading hreading => (h.readings reading hreading).append hcross

theorem Cache.Sound.setReading (h : c.Sound) {index : Nat} {reading : Reading}
    (hreading : reading.Sound c.log) : ({ c with readings := c.readings.set index reading } : Cache).Sound :=
  { h with
    readings := by
      intro other hother
      rcases List.mem_or_eq_of_mem_set hother with hold | rfl
      · exact h.readings other hold
      · exact hreading }

theorem captureContextBounds_sound {log : List Entry} {cut : Option Nat} {bounds : Bounds}
    (h : captureContextBounds log cut = .bounds bounds) :
    bounds = boundsAt log bounds.tail ∧ ∃ entry ∈ log, entry.id = bounds.tail := by
  cases cut with
  | none =>
    unfold captureContextBounds at h
    cases hlast : log.getLast? with
    | none =>
      rw [hlast] at h
      cases h
    | some last =>
      rw [hlast] at h
      cases h
      exact ⟨rfl, last, List.mem_of_getLast? hlast, rfl⟩
  | some cut =>
    simp only [captureContextBounds] at h
    split at h
    · rename_i hvisible
      cases h
      obtain ⟨entry, hentry, hid⟩ := List.any_eq_true.mp hvisible
      exact ⟨rfl, entry, hentry, decide_eq_true_eq.mp hid⟩
    · cases h

/-- **Every step** keeps the ranges exact. -/
theorem Cache.step_sound (h : c.Sound) (input : Input) (hback : headsBack c input) :
    (c.step input).Sound := by
  cases input with
  | commit drafts => exact h.commit hback
  | mint count =>
    exact { h with counted := fun entry hentry => (h.counted entry hentry).trans_le (Nat.le_add_right _ _) }
  | fork entryId =>
    simp only [Cache.step]
    split
    · refine ⟨h.ascending.sublist (List.filter_sublist), ?_, ?_, ?_, ?_⟩
      · exact fun entry hentry => h.counted entry (List.mem_filter.mp hentry).1
      · exact fun entry hentry => h.back entry (List.mem_filter.mp hentry).1
      · rintro _ ⟨⟩
      · exact fun _ hreading => absurd hreading List.not_mem_nil
    · exact h
  | read cut =>
    refine { h with readings := ?_ }
    intro reading hreading
    rcases List.mem_append.mp hreading with hold | hnew
    · exact h.readings reading hold
    · rw [List.mem_singleton.mp hnew]
      exact fun range hrange => (h.kept range hrange).1
  | capture index =>
    simp only [Cache.step]
    split
    · rename_i cut previous hget
      have hprevious : Reading.Sound c.log (.waiting cut previous) :=
        h.readings _ (List.mem_of_getElem? hget)
      apply h.setReading
      cases hcapture : captureContextBounds c.log cut with
      | empty => trivial
      | notVisible => trivial
      | bounds bounds =>
        obtain ⟨hbounds, htail⟩ := captureContextBounds_sound hcapture
        exact ⟨hprevious, hbounds, htail⟩
    · exact h
  | scan index known =>
    simp only [Cache.step]
    split
    · rename_i bounds previous current hget
      have hscanning : Reading.Sound c.log (.scanning bounds previous current) :=
        h.readings _ (List.mem_of_getElem? hget)
      obtain ⟨hprevious, hbounds, htail⟩ := hscanning
      apply h.setReading
      exact (rangeFrom_exact h.ascending h.back hprevious hbounds htail current).checked known
    · exact h
  | install index known keeps =>
    simp only [Cache.step]
    split
    · rename_i range hget
      have hreturned : Exact c.log range := h.readings (.returned range) (List.mem_of_getElem? hget)
      have hended : ({ c with readings := c.readings.set index .ended } : Cache).Sound :=
        h.setReading (show Reading.Sound c.log .ended from trivial)
      by_cases hkeeps : keeps = true
      · rw [if_pos hkeeps, Cache.keep]
        split
        · refine { hended with kept := ?_ }
          rintro kept ⟨⟩
          exact ⟨hreturned.checked known, checked_newest h.ascending known⟩
        · exact hended
      · rw [if_neg hkeeps]
        exact hended
    · exact h
  | drop => exact { h with kept := by rintro _ ⟨⟩ }

end Step

theorem Cache.init_sound : Cache.init.Sound where
  ascending := List.Pairwise.nil
  counted := fun _ hentry => absurd hentry List.not_mem_nil
  back := fun _ hentry => absurd hentry List.not_mem_nil
  kept := by rintro _ ⟨⟩
  readings := fun _ hreading => absurd hreading List.not_mem_nil

def Cache.HasRange (c : Cache) (range : Range) : Prop :=
  c.kept = some range
    ∨ (∃ cut, .waiting cut (some range) ∈ c.readings)
    ∨ (∃ bounds current, .scanning bounds (some range) current ∈ c.readings)
    ∨ .returned range ∈ c.readings

theorem Cache.Sound.exact {c : Cache} (h : c.Sound) {range : Range} (hrange : c.HasRange range) :
    Exact c.log range := by
  rcases hrange with hkept | ⟨cut, hread⟩ | ⟨bounds, current, hread⟩ | hread
  · exact (h.kept range hkept).1
  · exact h.readings _ hread range rfl
  · exact (h.readings _ hread).1 range rfl
  · exact h.readings _ hread

theorem headsBack_self {drafts : List Draft} (h : ∀ draft ∈ drafts, draft.head = none ∨ draft.head = some .self)
    (nextId : Nat) : HeadsBack (append nextId drafts) := by
  induction drafts generalizing nextId with
  | nil => exact fun _ hentry => absurd hentry List.not_mem_nil
  | cons draft drafts ih =>
    intro entry hentry head hhead
    rcases List.mem_cons.mp hentry with rfl | hrest
    · rcases h draft List.mem_cons_self with hnone | hself
      · simp [Draft.headAt, hnone] at hhead
      · simp only [Draft.headAt, hself, Option.map_some, Option.some.injEq] at hhead
        exact Nat.le_of_eq hhead.symm
    · exact ih (fun draft hdraft => h draft (List.mem_cons_of_mem _ hdraft)) _ entry hrest head hhead

/-- **A maintained range is the one a new read derives.** In every run whose commits write heads at or
before their entries, each range of a conversation has the view that is derived from scratch within its
bounds, holds every visible entry of its bounds, and is current only with nothing behind it while it is
kept. -/
theorem context_ranges_exact {c : Cache} (h : Reachable Cache.step headsBack Cache.init c) :
    (∀ range, c.HasRange range → range.view = deriveContext c.log range.bounds
      ∧ range.bounds = boundsAt c.log range.bounds.tail
      ∧ ∀ entry ∈ c.log, range.bounds.least ≤ entry.id → entry.id ≤ range.bounds.tail →
        entry ∈ range.entries)
    ∧ ∀ range, c.kept = some range → range.current →
      ∀ entry ∈ c.log, entry.id ≤ range.bounds.tail := by
  have hsound : c.Sound := h.invariant Cache.Sound Cache.init_sound fun _ input hc hi =>
    Cache.step_sound hc input hi
  refine ⟨?_, fun range hkept hcurrent => (hsound.kept range hkept).2 hcurrent⟩
  intro range hrange
  have hexact := hsound.exact hrange
  refine ⟨hexact.view_eq, hexact.bounds, ?_⟩
  intro entry hentry hleast htail
  rw [hexact.entries]
  exact List.mem_filter.mpr ⟨hentry, by simp [hleast, htail]⟩

/-- A conversation is read, the range is kept, and a commit follows. -/
def readThenCommit (head : DraftHead) : List Input :=
  [.commit [⟨0, "pi.reset", none, some head, none⟩], .read none, .capture 0, .scan 0 true,
    .install 0 true true, .commit [⟨0, "pi.user", none, none, none⟩]]

theorem context_ranges_exact_reset :
    ∃ range, (after Cache.step Cache.init (readThenCommit .self) 6).kept = some range
      ∧ range.view = deriveContext (after Cache.step Cache.init (readThenCommit .self) 6).log
        range.bounds := by
  have hguard : ∀ c, ∀ input ∈ readThenCommit .self, headsBack c input := by
    intro c input hinput
    simp only [readThenCommit, List.mem_cons, List.not_mem_nil, or_false] at hinput
    rcases hinput with rfl | rfl | rfl | rfl | rfl | rfl
    · exact headsBack_self (by simp) _
    · trivial
    · trivial
    · trivial
    · trivial
    · exact headsBack_self (by simp) _
  have hsome : (after Cache.step Cache.init (readThenCommit .self) 6).kept.isSome := by decide +kernel
  obtain ⟨range, hkept⟩ := Option.isSome_iff_exists.mp hsome
  exact ⟨range, hkept,
    ((context_ranges_exact (after_reachable_of hguard 6)).1 range (.inl hkept)).1⟩

/-- A head behind the newest entry: the next entry is before the range, and the range takes it in. -/
theorem context_range_future_head :
    ¬ ∀ c, Reachable Cache.step always Cache.init c → ∀ range, c.kept = some range →
      range.view = deriveContext c.log range.bounds := by
  intro h
  have hkept : ((after Cache.step Cache.init (readThenCommit (.entry 100)) 6).kept.any fun range =>
      range.view.entries.length ≠ (deriveContext
        (after Cache.step Cache.init (readThenCommit (.entry 100)) 6).log range.bounds).entries.length)
      = true := by decide +kernel
  cases hrange : (after Cache.step Cache.init (readThenCommit (.entry 100)) 6).kept with
  | none =>
    rw [hrange] at hkept
    cases hkept
  | some range =>
    rw [hrange, Option.any_some, decide_eq_true_eq] at hkept
    exact hkept (congrArg (fun view => view.entries.length) (h _ (after_reachable 6) range hrange))

end ThreeXhaust.Harness.Context
