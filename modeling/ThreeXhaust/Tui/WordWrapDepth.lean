import ThreeXhaust.Tui.WordWrapRows

/-!
# How deep a line is wrapped

A segment that is wider than a row is wrapped again, by its graphemes. A grapheme is its own only
grapheme, so one that is wider than a row is wrapped again without end.

* `Fits` — the text is not cut into segments.
-/

namespace ThreeXhaust.Tui.WordWrap

variable {u : Unicode} {maxWidth : Nat}

def Fits (u : Unicode) (maxWidth : Nat) (text : Text) : Prop :=
  text = [] ∨ u.visibleWidth text ≤ maxWidth

def segmentsOf (u : Unicode) (line : Text) (preSegmented : Option (List SegmentData)) :
    List SegmentData :=
  preSegmented.getD (indexed 0 (u.graphemes line))

theorem indexed_segments (index : Nat) (pieces : List Text) :
    (indexed index pieces).map (·.segment) = pieces := by
  induction pieces generalizing index with
  | nil => rfl
  | cons piece rest ih => rw [indexed, List.map_cons, ih]

theorem wordWrapLine_ne_nil {fuel : Nat} {line : Text} {preSegmented : Option (List SegmentData)}
    {chunks : List TextChunk} (h : wordWrapLine u fuel line maxWidth preSegmented = some chunks) :
    chunks ≠ [] := by
  cases fuel with
  | zero => cases h
  | succ fuel =>
    rw [wordWrapLine] at h
    split at h
    · cases h
      exact List.cons_ne_nil _ _
    · split at h
      · cases h
        exact List.cons_ne_nil _ _
      · obtain ⟨s, -, hpush⟩ := Option.bind_eq_some_iff.mp h
        cases hpush
        exact List.append_ne_nil_of_right_ne_nil _ (List.cons_ne_nil _ _)

theorem step_isSome {line : Text} {rewrap : Text → Option (List TextChunk)}
    (hrewrap : ∀ text chunks, rewrap text = some chunks → chunks ≠ []) (seg : SegmentData)
    (next : Option SegmentData) (s : Wrap) :
    (s.step u line maxWidth rewrap seg next).isSome ↔
      u.visibleWidth seg.segment ≤ maxWidth ∨ (rewrap seg.segment).isSome := by
  unfold Wrap.step
  dsimp only
  by_cases hwide : u.visibleWidth seg.segment > maxWidth
  · rw [if_pos hwide]
    have hnot : ¬ u.visibleWidth seg.segment ≤ maxWidth := Nat.not_le.mpr hwide
    cases hsub : rewrap seg.segment with
    | none => simp [hnot]
    | some chunks =>
      obtain ⟨last, hlast⟩ := Option.isSome_iff_exists.mp
        (List.getLast?_isSome.mpr (hrewrap _ _ hsub))
      simp [Wrap.rewrapped, hlast]
  · rw [if_neg hwide]
    exact iff_of_true rfl (.inl (Nat.le_of_not_lt hwide))

theorem wrapLoop_isSome {line : Text} {rewrap : Text → Option (List TextChunk)}
    (hrewrap : ∀ text chunks, rewrap text = some chunks → chunks ≠ []) (s : Wrap)
    (segments : List SegmentData) :
    (wrapLoop u line maxWidth rewrap s segments).isSome ↔ ∀ seg ∈ segments,
      u.visibleWidth seg.segment ≤ maxWidth ∨ (rewrap seg.segment).isSome := by
  induction segments generalizing s with
  | nil => exact iff_of_true rfl nofun
  | cons seg rest ih =>
    have hstep := @step_isSome u maxWidth line rewrap hrewrap seg rest.head? s
    rw [wrapLoop, List.forall_mem_cons, ← hstep]
    cases s.step u line maxWidth rewrap seg rest.head? with
    | none => simp
    | some s' => simpa using ih s'

theorem wordWrapLine_isSome (fuel : Nat) (line : Text) (preSegmented : Option (List SegmentData)) :
    (wordWrapLine u (fuel + 1) line maxWidth preSegmented).isSome ↔
      maxWidth = 0 ∨ Fits u maxWidth line ∨ ∀ seg ∈ segmentsOf u line preSegmented,
        u.visibleWidth seg.segment ≤ maxWidth
          ∨ (wordWrapLine u fuel seg.segment maxWidth none).isSome := by
  rw [wordWrapLine]
  by_cases hempty : line = [] ∨ maxWidth = 0
  · rw [if_pos hempty]
    exact iff_of_true rfl (hempty.elim (fun hline => .inr (.inl (.inl hline))) .inl)
  · obtain ⟨hline, hmax⟩ := not_or.mp hempty
    rw [if_neg hempty]
    by_cases hwidth : u.visibleWidth line ≤ maxWidth
    · rw [if_pos hwidth]
      exact iff_of_true rfl (.inr (.inl (.inr hwidth)))
    · have hfits : ¬ Fits u maxWidth line := not_or.mpr ⟨hline, hwidth⟩
      have hloop := @wrapLoop_isSome u maxWidth line (wordWrapLine u fuel · maxWidth none)
        (fun _ _ => wordWrapLine_ne_nil) ⟨[], 0, 0, none, 0⟩ (segmentsOf u line preSegmented)
      rw [if_neg hwidth]
      simp only [hmax, hfits, false_or]
      rw [← hloop, segmentsOf]
      cases wrapLoop u line maxWidth (wordWrapLine u fuel · maxWidth none) ⟨[], 0, 0, none, 0⟩
        (preSegmented.getD (indexed 0 (u.graphemes line))) with
      | none => exact Iff.rfl
      | some s => exact Iff.rfl

/-- **A grapheme wider than a row** is cut into itself, at every depth. -/
theorem never_wraps {grapheme : Text} (hone : u.graphemes grapheme = [grapheme])
    (hmax : maxWidth ≠ 0) (hwide : ¬ Fits u maxWidth grapheme) (fuel : Nat) :
    ¬ (wordWrapLine u fuel grapheme maxWidth none).isSome := by
  induction fuel with
  | zero => exact Bool.false_ne_true
  | succ fuel ih =>
    rw [wordWrapLine_isSome]
    rintro (hzero | hfits | hsegments)
    · exact hmax hzero
    · exact hwide hfits
    · have hself : (⟨grapheme, 0⟩ : SegmentData) ∈ segmentsOf u grapheme none := by
        show _ ∈ indexed 0 (u.graphemes grapheme)
        rw [hone]
        exact List.mem_singleton_self _
      rcases hsegments _ hself with hle | hagain
      · exact hwide (.inr hle)
      · exact ih hagain

/-- **Wrapping returns** exactly where every segment that is wider than a row has graphemes that are
not. -/
theorem wordWrapLine_returns_iff (u : Unicode) (line : Text) (maxWidth : Nat)
    (preSegmented : Option (List SegmentData))
    (hgraphemes : ∀ text, ∀ g ∈ u.graphemes text, u.graphemes g = [g]) :
    (∃ fuel, (wordWrapLine u fuel line maxWidth preSegmented).isSome) ↔
      maxWidth = 0 ∨ Fits u maxWidth line ∨ ∀ seg ∈ segmentsOf u line preSegmented,
        Fits u maxWidth seg.segment
          ∨ ∀ g ∈ u.graphemes seg.segment, Fits u maxWidth g := by
  constructor
  · rintro ⟨fuel, hreturns⟩
    cases fuel with
    | zero => cases hreturns
    | succ fuel =>
      rcases (wordWrapLine_isSome _ _ _).mp hreturns with hzero | hfits | hsegments
      · exact .inl hzero
      · exact .inr (.inl hfits)
      · by_cases hmax : maxWidth = 0
        · exact .inl hmax
        · refine .inr (.inr fun seg hseg => ?_)
          rcases hsegments seg hseg with hle | hagain
          · exact .inl (.inr hle)
          · -- the segment is wrapped by its graphemes, each of which is its own only one
            cases fuel with
            | zero => cases hagain
            | succ fuel =>
              rcases (wordWrapLine_isSome _ _ _).mp hagain with hzero | hfits | hparts
              · exact absurd hzero hmax
              · exact .inl hfits
              · refine .inr fun g hg => ?_
                rw [← indexed_segments 0 (u.graphemes seg.segment)] at hg
                obtain ⟨part, hpart, rfl⟩ := List.mem_map.mp hg
                rcases hparts part hpart with hle | hagain
                · exact .inr hle
                · by_contra hwide
                  have hmem := (mem_indexed hpart).1
                  exact never_wraps (hgraphemes _ _ hmem) hmax hwide _ hagain
  · intro hwhen
    refine ⟨3, (wordWrapLine_isSome _ _ _).mpr (hwhen.imp_right (Or.imp_right ?_))⟩
    intro hsegments seg hseg
    right
    rw [wordWrapLine_isSome]
    refine .inr ((hsegments seg hseg).imp_right fun hparts part hpart => ?_)
    right
    rw [wordWrapLine_isSome]
    exact .inr (.inl (hparts _ (mem_indexed hpart).1))

def wideUnits (columns : Nat) : Unicode where
  visibleWidth text := text.length * columns
  isWhitespaceChar text := text = [32]
  cjkBreak _ := false
  graphemes text := text.map ([·])

theorem wideUnits_graphemes (columns : Nat) (text : Text) :
    ∀ g ∈ (wideUnits columns).graphemes text, (wideUnits columns).graphemes g = [g] := by
  intro g hg
  obtain ⟨unit, -, rfl⟩ := List.mem_map.mp hg
  rfl

/-- Two wide characters in two columns. -/
theorem wordWrapLine_returns_twoColumns :
    ∃ fuel, (wordWrapLine (wideUnits 2) fuel [0x5BBD, 0x5BBD] 2 none).isSome := by
  apply (wordWrapLine_returns_iff (wideUnits 2) [0x5BBD, 0x5BBD] 2 none (wideUnits_graphemes 2)).mpr
  refine .inr (.inr fun seg hseg => .inl (.inr ?_))
  rcases List.mem_pair.mp hseg with rfl | rfl
  · decide
  · decide

/-- **A wide character in one column** is wrapped without end. -/
theorem wide_character_never_returns :
    ¬ ∀ (u : Unicode) (line : Text) (maxWidth : Nat) (preSegmented : Option (List SegmentData)),
      (∀ text, ∀ g ∈ u.graphemes text, u.graphemes g = [g]) →
      ∃ fuel, (wordWrapLine u fuel line maxWidth preSegmented).isSome := by
  intro h
  obtain ⟨fuel, hreturns⟩ := h (wideUnits 2) [0x5BBD] 1 none (wideUnits_graphemes 2)
  have hwide : ¬ Fits (wideUnits 2) 1 [0x5BBD] := by
    unfold Fits
    decide
  exact never_wraps rfl (by decide) hwide fuel hreturns

end ThreeXhaust.Tui.WordWrap
