import ThreeXhaust.Tui.WordWrap
import Mathlib.Algebra.BigOperators.Group.List.Basic
import Mathlib.Algebra.GroupWithZero.Nat

/-!
# The rows of a wrapped line

What `wordWrapLine` returns, for any segmentation in which markers are merged. Indices are read off
the count of graphemes in front of them: `pos` is where the first `k` graphemes end, `wid` how wide
they are.
-/

namespace ThreeXhaust.Tui.WordWrap

/-! ## What is required and what is claimed -/

/-- Texts put together from neighbouring graphemes are as wide as these. -/
def Additive (u : Unicode) (graphemes : List Text) : Prop :=
  ∀ run, run <:+: graphemes → u.visibleWidth run.flatten = (run.map u.visibleWidth).sum

def IsGroup (u : Unicode) (group : List Text) : Prop :=
  (∃ grapheme, group = [grapheme])
    ∨ (isPasteMarker group.flatten = true ∧ u.graphemes group.flatten = group)

def Merged (u : Unicode) (graphemes : List Text) (segments : List SegmentData) : Prop :=
  ∃ groups : List (List Text), groups.flatten = graphemes ∧ (∀ group ∈ groups, IsGroup u group)
    ∧ segments = indexed 0 (groups.map List.flatten)

/-- The chunks are consecutive non-empty slices of the line, from `start` to `stop`. -/
@[grind =]
def Consecutive (line : Text) : Nat → List TextChunk → Nat → Prop
  | start, [], stop => start = stop
  | start, chunk :: rest, stop =>
    chunk.startIndex = start ∧ start < chunk.endIndex ∧ chunk.endIndex ≤ line.length
      ∧ chunk.text = slice line start chunk.endIndex ∧ Consecutive line chunk.endIndex rest stop

/-- A row may begin at a segment, or inside a marker that does not fit into a row. -/
def Breakable (u : Unicode) (maxWidth : Nat) (segments : List SegmentData) (index : Nat) : Prop :=
  ∃ seg ∈ segments, index = seg.index
    ∨ (isPasteMarker seg.segment = true ∧ maxWidth < u.visibleWidth seg.segment
      ∧ seg.index < index ∧ index < seg.index + seg.segment.length)

structure Partition (u : Unicode) (line : Text) (maxWidth : Nat) (segments : List SegmentData)
    (chunks : List TextChunk) : Prop where
  consecutive : Consecutive line 0 chunks line.length
  fits : ∀ chunk ∈ chunks, u.visibleWidth chunk.text ≤ maxWidth
  breakable : ∀ chunk ∈ chunks, Breakable u maxWidth segments chunk.startIndex

/-! ## Positions -/

def pos (graphemes : List Text) (k : Nat) : Nat := (graphemes.take k).flatten.length

def wid (u : Unicode) (graphemes : List Text) (k : Nat) : Nat :=
  ((graphemes.take k).map u.visibleWidth).sum

section Positions

variable {u : Unicode} {graphemes : List Text}

@[simp] theorem pos_zero : pos graphemes 0 = 0 := rfl

@[simp] theorem wid_zero : wid u graphemes 0 = 0 := rfl

theorem pos_length : pos graphemes graphemes.length = graphemes.flatten.length := by
  rw [pos, List.take_length]

theorem pos_add (front group back : List Text) {j : Nat} (hj : j ≤ group.length) :
    pos (front ++ group ++ back) (front.length + j) = front.flatten.length + pos group j := by
  rw [pos, pos, List.append_assoc, List.take_length_add_append, List.take_append_of_le_length hj,
    List.flatten_append, List.length_append]

theorem wid_add (front group back : List Text) {j : Nat} (hj : j ≤ group.length) :
    wid u (front ++ group ++ back) (front.length + j)
      = (front.map u.visibleWidth).sum + wid u group j := by
  rw [wid, wid, List.append_assoc, List.take_length_add_append, List.take_append_of_le_length hj,
    List.map_append, List.sum_append]

theorem pos_mono {a b : Nat} (hab : a ≤ b) : pos graphemes a ≤ pos graphemes b := by
  have htake : (graphemes.take b).take a = graphemes.take a := by
    rw [List.take_take, Nat.min_eq_left hab]
  rw [pos, pos, ← htake]
  conv_rhs => rw [← List.take_append_drop a (graphemes.take b)]
  rw [List.flatten_append, List.length_append]
  exact Nat.le_add_right _ _

theorem pos_succ {a : Nat} (ha : a < graphemes.length) :
    pos graphemes (a + 1) = pos graphemes a + graphemes[a].length := by
  rw [pos, pos, List.take_succ_eq_append_getElem ha, List.flatten_append, List.length_append,
    List.flatten_singleton]

theorem pos_strictMono (hne : ∀ g ∈ graphemes, g ≠ []) {a b : Nat} (hab : a < b)
    (hb : b ≤ graphemes.length) : pos graphemes a < pos graphemes b := by
  have hpiece : graphemes[a] ≠ [] := hne _ (List.getElem_mem _)
  have hlength := List.length_pos_iff.mpr hpiece
  have hsucc := pos_succ (Nat.lt_of_lt_of_le hab hb)
  have hmono := @pos_mono graphemes (a + 1) b hab
  omega

theorem slice_pos {a b : Nat} (hab : a ≤ b) :
    slice graphemes.flatten (pos graphemes a) (pos graphemes b)
      = ((graphemes.take b).drop a).flatten := by
  have hsplit : graphemes.flatten = (graphemes.take b).flatten ++ (graphemes.drop b).flatten := by
    rw [← List.flatten_append, List.take_append_drop]
  have htake : graphemes.flatten.take (pos graphemes b) = (graphemes.take b).flatten := by
    rw [hsplit, pos]
    exact List.take_left
  rw [slice, htake]
  have hdrop : (graphemes.take b).take a = graphemes.take a := by
    rw [List.take_take, Nat.min_eq_left hab]
  conv_lhs => rw [← List.take_append_drop a (graphemes.take b), hdrop]
  rw [List.flatten_append]
  exact List.drop_left

theorem wid_mono {a b : Nat} (hab : a ≤ b) : wid u graphemes a ≤ wid u graphemes b := by
  have htake : (graphemes.take b).take a = graphemes.take a := by
    rw [List.take_take, Nat.min_eq_left hab]
  rw [wid, wid, ← htake]
  conv_rhs => rw [← List.take_append_drop a (graphemes.take b)]
  rw [List.map_append, List.sum_append]
  exact Nat.le_add_right _ _

/-- **The width between two positions.** -/
theorem visibleWidth_slice (hadd : Additive u graphemes) {a b : Nat} (hab : a ≤ b) :
    u.visibleWidth (slice graphemes.flatten (pos graphemes a) (pos graphemes b)) + wid u graphemes a
      = wid u graphemes b := by
  have hrun : (graphemes.take b).drop a <:+: graphemes :=
    (List.drop_suffix a _).isInfix.trans (List.take_prefix b _).isInfix
  have htake : (graphemes.take b).take a = graphemes.take a := by
    rw [List.take_take, Nat.min_eq_left hab]
  rw [slice_pos hab, hadd _ hrun, wid, wid, ← htake]
  conv_rhs => rw [← List.take_append_drop a (graphemes.take b)]
  rw [List.map_append, List.sum_append, Nat.add_comm]

end Positions

/-! ## Consecutive chunks -/

theorem consecutive_append {line : Text} {start stop : Nat} {front back : List TextChunk} :
    Consecutive line start (front ++ back) stop
      ↔ ∃ middle, Consecutive line start front middle ∧ Consecutive line middle back stop := by
  induction front generalizing start with
  | nil => exact ⟨fun h => ⟨start, rfl, h⟩, fun ⟨_, heq, h⟩ => heq ▸ h⟩
  | cons chunk rest ih =>
    constructor
    · rintro ⟨h₁, h₂, h₃, h₄, hrest⟩
      obtain ⟨middle, hfront, hback⟩ := ih.mp hrest
      exact ⟨middle, ⟨h₁, h₂, h₃, h₄, hfront⟩, hback⟩
    · rintro ⟨middle, ⟨h₁, h₂, h₃, h₄, hfront⟩, hback⟩
      exact ⟨h₁, h₂, h₃, h₄, ih.mpr ⟨middle, hfront, hback⟩⟩

theorem slice_shift (front text back : Text) {start stop : Nat} (hstop : stop ≤ text.length) :
    slice (front ++ text ++ back) (front.length + start) (front.length + stop)
      = slice text start stop := by
  rw [slice, slice, List.append_assoc, List.take_length_add_append,
    List.take_append_of_le_length hstop, List.drop_length_add_append]

theorem Consecutive.shift {front text back : Text} {start stop : Nat} {chunks : List TextChunk}
    (h : Consecutive text start chunks stop) :
    Consecutive (front ++ text ++ back) (front.length + start)
      (chunks.map fun sc => ⟨sc.text, front.length + sc.startIndex, front.length + sc.endIndex⟩)
      (front.length + stop) := by
  induction chunks generalizing start with
  | nil => exact congrArg (front.length + ·) h
  | cons chunk rest ih =>
    obtain ⟨hstart, hlt, hle, htext, hrest⟩ := h
    refine ⟨congrArg (front.length + ·) hstart, Nat.add_lt_add_left hlt _, ?_, ?_, ih hrest⟩
    · simp only [List.length_append]
      omega
    · rw [htext, slice_shift front text back hle]

theorem Consecutive.mem {line : Text} {start stop : Nat} {chunks : List TextChunk}
    (h : Consecutive line start chunks stop) {chunk : TextChunk} (hchunk : chunk ∈ chunks) :
    start ≤ chunk.startIndex ∧ chunk.startIndex < chunk.endIndex
      ∧ chunk.endIndex ≤ line.length := by
  induction chunks generalizing start with
  | nil => cases hchunk
  | cons head rest ih =>
    obtain ⟨hstart, hlt, hle, -, hrest⟩ := h
    rcases List.mem_cons.mp hchunk with rfl | hchunk
    · exact ⟨Nat.le_of_eq hstart.symm, hstart ▸ hlt, hle⟩
    · obtain ⟨hfirst, hrest⟩ := ih hrest hchunk
      exact ⟨(Nat.le_of_lt hlt).trans hfirst, hrest⟩

theorem mem_indexed {index : Nat} {pieces : List Text} {seg : SegmentData}
    (h : seg ∈ indexed index pieces) :
    seg.segment ∈ pieces ∧ ∃ j < pieces.length, seg.index = index + pos pieces j := by
  induction pieces generalizing index with
  | nil => cases h
  | cons piece rest ih =>
    rcases List.mem_cons.mp h with rfl | h
    · exact ⟨List.mem_cons_self, 0, Nat.succ_pos _, rfl⟩
    · obtain ⟨hmem, j, hj, hindex⟩ := ih h
      refine ⟨List.mem_cons_of_mem _ hmem, j + 1, Nat.succ_lt_succ hj, ?_⟩
      rw [hindex, pos, pos, List.take_succ_cons, List.flatten_cons, List.length_append]
      omega

/-! ## The loop -/

section Loop

variable {u : Unicode} {graphemes : List Text} {maxWidth : Nat} {segments : List SegmentData}

variable (u graphemes maxWidth segments) in
/-- The chunks so far: they end where the first `a` graphemes do. -/
structure Rows (chunks : List TextChunk) (a : Nat) : Prop where
  consecutive : Consecutive graphemes.flatten 0 chunks (pos graphemes a)
  fits : ∀ chunk ∈ chunks, u.visibleWidth chunk.text ≤ maxWidth
  breakable : ∀ chunk ∈ chunks, Breakable u maxWidth segments chunk.startIndex

theorem Rows.push (hne : ∀ g ∈ graphemes, g ≠ []) (hadd : Additive u graphemes)
    {chunks : List TextChunk} {a b : Nat} (h : Rows u graphemes maxWidth segments chunks a)
    (hab : a < b) (hb : b ≤ graphemes.length)
    (hwidth : wid u graphemes b ≤ wid u graphemes a + maxWidth)
    (hstart : Breakable u maxWidth segments (pos graphemes a)) :
    Rows u graphemes maxWidth segments
      (chunks ++ [⟨slice graphemes.flatten (pos graphemes a) (pos graphemes b), pos graphemes a,
        pos graphemes b⟩]) b := by
  have hslice := visibleWidth_slice hadd (Nat.le_of_lt hab)
  have hlength : pos graphemes b ≤ graphemes.flatten.length := by
    rw [← pos_length]
    exact pos_mono hb
  refine ⟨?_, ?_, ?_⟩
  · exact consecutive_append.mpr ⟨_, h.consecutive, rfl, pos_strictMono hne hab hb, hlength, rfl, rfl⟩
  · intro chunk hchunk
    rcases List.mem_append.mp hchunk with hchunk | hchunk
    · exact h.fits chunk hchunk
    · obtain rfl := List.eq_of_mem_singleton hchunk
      show u.visibleWidth (slice _ _ _) ≤ maxWidth
      omega
  · intro chunk hchunk
    rcases List.mem_append.mp hchunk with hchunk | hchunk
    · exact h.breakable chunk hchunk
    · obtain rfl := List.eq_of_mem_singleton hchunk
      exact hstart

variable (u graphemes maxWidth segments) in
/-- The variables of the loop with the first `k` graphemes seen: the current chunk begins behind
the first `a`, and the remembered break lies behind them. -/
structure Inv (s : Wrap) (a k : Nat) : Prop where
  rows : Rows u graphemes maxWidth segments s.chunks a
  breakable : Breakable u maxWidth segments (pos graphemes a)
  start : s.chunkStart = pos graphemes a
  le : a ≤ k
  bound : k ≤ graphemes.length
  current : s.currentWidth = wid u graphemes k - wid u graphemes a
  fits : wid u graphemes k ≤ wid u graphemes a + maxWidth
  opp : ∀ index ∈ s.wrapOppIndex, ∃ w, a < w ∧ w ≤ k ∧ index = pos graphemes w
    ∧ s.wrapOppWidth = wid u graphemes w - wid u graphemes a
    ∧ Breakable u maxWidth segments (pos graphemes w)

/-- **Room is made** for the next segment, in the current chunk or in a new one; for a segment that
does not fit into a row the new chunk is empty. -/
theorem Inv.overflow (hne : ∀ g ∈ graphemes, g ≠ []) (hadd : Additive u graphemes) {s : Wrap}
    {a k : Nat} (h : Inv u graphemes maxWidth segments s a k) (gWidth : Nat)
    (hbreak : Breakable u maxWidth segments (pos graphemes k)) :
    ∃ a', Inv u graphemes maxWidth segments
        (s.overflow graphemes.flatten maxWidth gWidth (pos graphemes k)) a' k
      ∧ (gWidth ≤ maxWidth → wid u graphemes k + gWidth ≤ wid u graphemes a' + maxWidth)
      ∧ (maxWidth < gWidth → a' = k) := by
  obtain ⟨hrows, hbreaka, hstart, hle, hbound, hcurrent, hfits, hopp⟩ := h
  have hmono := @wid_mono u graphemes a k hle
  -- a chunk that ends in front of the segment
  have hforce (hlt : s.chunkStart < pos graphemes k) : Inv u graphemes maxWidth segments
      { s.push graphemes.flatten (pos graphemes k) with currentWidth := 0, wrapOppIndex := none }
      k k := by
    have hak : a < k := by
      rcases Nat.lt_or_ge a k with hak | hak
      · exact hak
      · have := @pos_mono graphemes k a hak
        omega
    have hpush := hrows.push hne hadd hak hbound hfits hbreaka
    rw [← hstart] at hpush
    exact ⟨hpush, hbreak, rfl, Nat.le_refl k, hbound, by show (0 : Int) = _; omega, Nat.le_add_right _ _,
      fun _ hnone => absurd hnone (Option.not_mem_none _)⟩
  -- the current chunk is empty already
  have hempty (hge : ¬ s.chunkStart < pos graphemes k) : a = k := by
    rcases Nat.lt_or_ge a k with hak | hak
    · have := pos_strictMono hne hak hbound
      omega
    · omega
  have hkeep (hak : a = k) :
      Inv u graphemes maxWidth segments { s with wrapOppIndex := none } k k := by
    subst hak
    exact ⟨hrows, hbreak, hstart, hle, hbound, hcurrent, hfits,
      fun _ hnone => absurd hnone (Option.not_mem_none _)⟩
  have hroom : gWidth ≤ maxWidth → wid u graphemes k + gWidth ≤ wid u graphemes k + maxWidth :=
    fun hg => Nat.add_le_add_left hg _
  rw [Wrap.overflow]
  by_cases hover : s.currentWidth + gWidth > maxWidth
  · rw [if_pos hover]
    cases hindex : s.wrapOppIndex with
    | none =>
      simp only
      by_cases hlt : s.chunkStart < pos graphemes k
      · rw [if_pos hlt]
        exact ⟨k, hforce hlt, hroom, fun _ => rfl⟩
      · rw [if_neg hlt]
        exact ⟨k, hkeep (hempty hlt), hroom, fun _ => rfl⟩
    | some index =>
      obtain ⟨w, haw, hwk, rfl, hwidth, hbreakw⟩ := hopp index hindex
      have haww := @wid_mono u graphemes a w (Nat.le_of_lt haw)
      have hwkw := @wid_mono u graphemes w k hwk
      simp only
      by_cases hback : s.currentWidth - s.wrapOppWidth + gWidth ≤ maxWidth
      · rw [if_pos hback]
        have hpush := hrows.push hne hadd haw (hwk.trans hbound) (by omega) hbreaka
        rw [← hstart] at hpush
        refine ⟨w, ⟨hpush, hbreakw, rfl, hwk, hbound, ?_, by omega,
          fun _ hnone => absurd hnone (Option.not_mem_none _)⟩, fun _ => by omega,
          fun hwide => by omega⟩
        show s.currentWidth - s.wrapOppWidth = _
        omega
      · rw [if_neg hback]
        by_cases hlt : s.chunkStart < pos graphemes k
        · rw [if_pos hlt]
          exact ⟨k, hforce hlt, hroom, fun _ => rfl⟩
        · rw [if_neg hlt]
          exact ⟨k, hkeep (hempty hlt), hroom, fun _ => rfl⟩
  · rw [if_neg hover]
    exact ⟨a, ⟨hrows, hbreaka, hstart, hle, hbound, hcurrent, hfits, hopp⟩, fun _ => by omega,
      fun hwide => by omega⟩

/-- A segment that does not fit: all pieces but the last are rows, and the last one opens the next
row. -/
theorem Inv.rewrapped (hadd : Additive u graphemes) {s : Wrap} {done group back : List Text}
    (hsplit : graphemes = done ++ group ++ back)
    (h : Inv u graphemes maxWidth segments s done.length done.length)
    (hseg : ⟨group.flatten, pos graphemes done.length⟩ ∈ segments)
    (hne : group.flatten ≠ []) (hmarker : isPasteMarker group.flatten = true)
    (hwide : maxWidth < u.visibleWidth group.flatten)
    (hnarrow : ∀ g ∈ group, u.visibleWidth g ≤ maxWidth) {subChunks : List TextChunk}
    (hsub : Partition u group.flatten maxWidth (indexed 0 group) subChunks) :
    ∃ s' a', s.rewrapped u (pos graphemes done.length) subChunks = some s'
      ∧ Inv u graphemes maxWidth segments s' a' (done.length + group.length)
      ∧ a' < done.length + group.length := by
  have hdone : pos graphemes done.length = done.flatten.length := by
    have := pos_add done group back (Nat.zero_le _)
    rwa [← hsplit, Nat.add_zero, pos_zero, Nat.add_zero] at this
  have hflatten : graphemes.flatten = done.flatten ++ group.flatten ++ back.flatten := by
    rw [hsplit, List.flatten_append, List.flatten_append]
  have hbound : done.length + group.length ≤ graphemes.length := by
    rw [hsplit, List.length_append, List.length_append]
    exact Nat.le_add_right _ _
  have hposition {j : Nat} (hj : j ≤ group.length) :
      pos graphemes (done.length + j) = done.flatten.length + pos group j := by
    have := pos_add done group back hj
    rwa [← hsplit] at this
  -- a piece begins at a grapheme of the marker
  have hstart {chunk : TextChunk} (hchunk : chunk ∈ subChunks) :
      ∃ j < group.length, chunk.startIndex = pos group j := by
    obtain ⟨seg, hmem, hindex | ⟨-, hsegWide, -⟩⟩ := hsub.breakable chunk hchunk
    · obtain ⟨-, j, hj, hseg⟩ := mem_indexed hmem
      exact ⟨j, hj, by rw [hindex, hseg, Nat.zero_add]⟩
    · have := hnarrow _ (mem_indexed hmem).1
      omega
  have hbreakable {chunk : TextChunk} (hchunk : chunk ∈ subChunks) :
      Breakable u maxWidth segments (pos graphemes done.length + chunk.startIndex) := by
    refine ⟨_, hseg, ?_⟩
    obtain ⟨-, hlt, hle⟩ := hsub.consecutive.mem hchunk
    rcases Nat.eq_zero_or_pos chunk.startIndex with hzero | hpos
    · exact .inl (by rw [hzero, Nat.add_zero])
    · exact .inr ⟨hmarker, hwide, Nat.lt_add_of_pos_right hpos,
        Nat.add_lt_add_left (hlt.trans_le hle) _⟩
  obtain rfl | ⟨init, last, rfl⟩ := List.eq_nil_or_concat subChunks
  · exact absurd (List.eq_nil_of_length_eq_zero hsub.consecutive.symm) hne
  · have hmemLast : last ∈ init.concat last := by
      rw [List.concat_eq_append]
      exact List.mem_append_right _ List.mem_cons_self
    have hmemInit {chunk : TextChunk} (hchunk : chunk ∈ init) : chunk ∈ init.concat last := by
      rw [List.concat_eq_append]
      exact List.mem_append_left _ hchunk
    have hconsecutive := hsub.consecutive
    rw [List.concat_eq_append] at hconsecutive
    obtain ⟨middle, hinit, hlast, hlt, -, htext, hend⟩ := consecutive_append.mp hconsecutive
    obtain ⟨j, hj, hindex⟩ := hstart hmemLast
    have hpos := hposition (Nat.le_of_lt hj)
    have hposEnd := hposition (Nat.le_refl group.length)
    rw [pos_length] at hposEnd
    rw [Wrap.rewrapped, List.concat_eq_append, List.getLast?_concat, List.dropLast_concat]
    refine ⟨_, done.length + j, rfl, ?_⟩
    -- the last piece, as a slice of the whole line
    have hslice : last.text = slice graphemes.flatten (pos graphemes (done.length + j))
        (pos graphemes (done.length + group.length)) := by
      rw [htext, hend, hpos, hposEnd, hflatten, slice_shift _ _ _ (Nat.le_refl _), ← hindex, hlast]
    have hwidth := visibleWidth_slice hadd
      (Nat.add_le_add_left (Nat.le_of_lt hj) done.length)
    rw [← hslice] at hwidth
    have hfits := hsub.fits last hmemLast
    refine ⟨⟨⟨?_, ?_, ?_⟩, ?_, ?_, Nat.add_le_add_left (Nat.le_of_lt hj) _, hbound, ?_, by omega,
      fun _ hnone => absurd hnone (Option.not_mem_none _)⟩, Nat.add_lt_add_left hj _⟩
    · refine consecutive_append.mpr ⟨_, h.rows.consecutive, ?_⟩
      have hshift := @Consecutive.shift done.flatten _ back.flatten _ _ _ hinit
      rw [← hflatten, Nat.add_zero, ← hdone, ← hlast, hindex, hdone, ← hpos] at hshift
      rw [hdone]
      exact hshift
    · intro chunk hchunk
      rcases List.mem_append.mp hchunk with hchunk | hchunk
      · exact h.rows.fits chunk hchunk
      · obtain ⟨sc, hsc, rfl⟩ := List.mem_map.mp hchunk
        exact hsub.fits sc (hmemInit hsc)
    · intro chunk hchunk
      rcases List.mem_append.mp hchunk with hchunk | hchunk
      · exact h.rows.breakable chunk hchunk
      · obtain ⟨sc, hsc, rfl⟩ := List.mem_map.mp hchunk
        exact hbreakable (hmemInit hsc)
    · rw [hpos, ← hindex, ← hdone]
      exact hbreakable hmemLast
    · show pos graphemes done.length + last.startIndex = _
      rw [hpos, hindex, hdone]
    · show (u.visibleWidth last.text : Int) = _
      omega

theorem Inv.advance {s : Wrap} {a k k' : Nat} (h : Inv u graphemes maxWidth segments s a k)
    (hk : k < k') (hbound : k' ≤ graphemes.length) {gWidth : Nat}
    (hwidth : wid u graphemes k' = wid u graphemes k + gWidth)
    (hroom : wid u graphemes k + gWidth ≤ wid u graphemes a + maxWidth) (seg : SegmentData)
    {next : Option SegmentData}
    (hnext : ∀ n ∈ next, n ∈ segments ∧ n.index = pos graphemes k') :
    Inv u graphemes maxWidth segments (s.advance u gWidth seg next) a k' := by
  obtain ⟨hrows, hbreaka, hstart, hle, -, hcurrent, -, hopp⟩ := h
  have hcurrent' : s.currentWidth + gWidth = wid u graphemes k' - wid u graphemes a := by omega
  have hkept (index : Nat) (hindex : index ∈ s.wrapOppIndex) : ∃ w, a < w ∧ w ≤ k'
      ∧ index = pos graphemes w ∧ s.wrapOppWidth = wid u graphemes w - wid u graphemes a
      ∧ Breakable u maxWidth segments (pos graphemes w) := by
    obtain ⟨w, haw, hwk, hrest⟩ := hopp index hindex
    exact ⟨w, haw, hwk.trans (Nat.le_of_lt hk), hrest⟩
  have hsame : Inv u graphemes maxWidth segments
      { s with currentWidth := s.currentWidth + gWidth } a k' :=
    ⟨hrows, hbreaka, hstart, hle.trans (Nat.le_of_lt hk), hbound, hcurrent', by omega, hkept⟩
  cases next with
  | none => exact hsame
  | some n =>
    simp only [Wrap.advance]
    split
    · obtain ⟨hmem, hindex⟩ := hnext n rfl
      refine ⟨hrows, hbreaka, hstart, hle.trans (Nat.le_of_lt hk), hbound, hcurrent', by omega, ?_⟩
      intro index hsome
      obtain rfl := Option.mem_some.mp hsome
      exact ⟨k', Nat.lt_of_le_of_lt hle hk, Nat.le_refl _, hindex, hcurrent',
        n, hmem, .inl hindex.symm⟩
    · exact hsame

theorem Inv.step (hne : ∀ g ∈ graphemes, g ≠ []) (hadd : Additive u graphemes)
    (hwidth : ∀ g ∈ graphemes, u.visibleWidth g ≤ maxWidth)
    {rewrap : Text → Option (List TextChunk)} {s : Wrap} {done group back : List Text} {a : Nat}
    (hsplit : graphemes = done ++ group ++ back)
    (h : Inv u graphemes maxWidth segments s a done.length) (hgroup : IsGroup u group)
    (hnonempty : group ≠ [])
    (hsub : isPasteMarker group.flatten = true → u.graphemes group.flatten = group →
      maxWidth < u.visibleWidth group.flatten → ∃ subChunks, rewrap group.flatten = some subChunks
        ∧ Partition u group.flatten maxWidth (indexed 0 group) subChunks)
    (hseg : ⟨group.flatten, pos graphemes done.length⟩ ∈ segments) {next : Option SegmentData}
    (hnext : ∀ n ∈ next, n ∈ segments
      ∧ n.index = pos graphemes (done.length + group.length)) :
    ∃ s' a', s.step u graphemes.flatten maxWidth rewrap
        ⟨group.flatten, pos graphemes done.length⟩ next = some s'
      ∧ Inv u graphemes maxWidth segments s' a' (done.length + group.length)
      ∧ a' < done.length + group.length := by
  have hmem {g : Text} (hg : g ∈ group) : g ∈ graphemes := by
    rw [hsplit]
    exact List.mem_append_left _ (List.mem_append_right _ hg)
  have hrun : group <:+: graphemes := ⟨done, back, hsplit.symm⟩
  have hgWidth : u.visibleWidth group.flatten = (group.map u.visibleWidth).sum := hadd _ hrun
  obtain ⟨a', hoverflow, hroom, hempty⟩ := h.overflow hne hadd (u.visibleWidth group.flatten)
    ⟨_, hseg, .inl rfl⟩
  rw [Wrap.step]
  simp only
  by_cases hwide : maxWidth < u.visibleWidth group.flatten
  · rw [if_pos (by omega)]
    rcases hgroup with ⟨g, rfl⟩ | ⟨hmarker, hsame⟩
    · -- a single grapheme fits
      have := hwidth g (hmem List.mem_cons_self)
      rw [List.flatten_singleton] at hwide
      omega
    · obtain ⟨subChunks, hrewrap, hpartition⟩ := hsub hmarker hsame hwide
      have hflatten : group.flatten ≠ [] := by
        intro hnil
        have := hnonempty
        rw [← hsame, hnil] at this
        rw [hnil] at hmarker
        cases hmarker
      obtain rfl := hempty hwide
      rw [hrewrap]
      exact hoverflow.rewrapped hadd hsplit hseg hflatten hmarker hwide
        (fun g hg => hwidth g (hmem hg)) hpartition
  · rw [if_neg (by omega)]
    have hlt : done.length < done.length + group.length :=
      Nat.lt_add_of_pos_right (List.length_pos_iff.mpr hnonempty)
    refine ⟨_, a', rfl, hoverflow.advance hlt ?_ ?_ (hroom (by omega)) _ hnext,
      Nat.lt_of_le_of_lt hoverflow.le hlt⟩
    · rw [hsplit, List.length_append, List.length_append]
      exact Nat.le_add_right _ _
    · have hend := @wid_add u done group back _ (Nat.le_refl _)
      have hbegin := @wid_add u done group back _ (Nat.zero_le _)
      rw [← hsplit, wid, wid, List.take_length] at hend
      rw [← hsplit, Nat.add_zero, wid_zero, Nat.add_zero] at hbegin
      rw [hgWidth, hbegin, ← hend]
      rfl

/-- **The whole loop.** -/
theorem wrapLoop_inv (hne : ∀ g ∈ graphemes, g ≠ []) (hadd : Additive u graphemes)
    (hwidth : ∀ g ∈ graphemes, u.visibleWidth g ≤ maxWidth)
    {rewrap : Text → Option (List TextChunk)}
    {s : Wrap} {done : List Text} {groups : List (List Text)} {a : Nat}
    (hsub : ∀ group ∈ groups, isPasteMarker group.flatten = true →
      u.graphemes group.flatten = group → maxWidth < u.visibleWidth group.flatten →
      ∃ subChunks, rewrap group.flatten = some subChunks
        ∧ Partition u group.flatten maxWidth (indexed 0 group) subChunks)
    (hsplit : graphemes = done ++ groups.flatten) (hgroups : ∀ group ∈ groups, IsGroup u group)
    (hsegments : ∀ seg ∈ indexed (pos graphemes done.length) (groups.map List.flatten),
      seg ∈ segments)
    (h : Inv u graphemes maxWidth segments s a done.length) :
    ∃ s' a', wrapLoop u graphemes.flatten maxWidth rewrap s
        (indexed (pos graphemes done.length) (groups.map List.flatten)) = some s'
      ∧ Inv u graphemes maxWidth segments s' a' graphemes.length
      ∧ (groups ≠ [] ∨ a < done.length → a' < graphemes.length) := by
  induction groups generalizing s done a with
  | nil =>
    rw [List.flatten_nil, List.append_nil] at hsplit
    subst hsplit
    exact ⟨s, a, rfl, h, fun hor => hor.resolve_left (· rfl)⟩
  | cons group rest ih =>
    rw [List.flatten_cons, ← List.append_assoc] at hsplit
    have hsplit' : graphemes = (done ++ group) ++ rest.flatten := hsplit
    have hnonempty : group ≠ [] := by
      rintro rfl
      rcases hgroups [] List.mem_cons_self with ⟨g, hg⟩ | ⟨hmarker, -⟩
      · cases hg
      · cases hmarker
    have hindex : pos graphemes done.length + group.flatten.length
        = pos graphemes (done ++ group).length := by
      have hend := pos_add done group rest.flatten (Nat.le_refl _)
      have hbegin := pos_add done group rest.flatten (Nat.zero_le _)
      rw [← hsplit, pos_length] at hend
      rw [← hsplit, Nat.add_zero, pos_zero, Nat.add_zero] at hbegin
      rw [List.length_append, hend, hbegin]
    rw [List.map_cons, indexed, hindex] at hsegments ⊢
    have hnext : ∀ n ∈ (indexed (pos graphemes (done ++ group).length)
        (rest.map List.flatten)).head?, n ∈ segments
          ∧ n.index = pos graphemes (done.length + group.length) := by
      intro n hn
      refine ⟨hsegments n (List.mem_cons_of_mem _ (List.mem_of_mem_head? hn)), ?_⟩
      cases rest with
      | nil => cases hn
      | cons next rest =>
        rw [List.map_cons, indexed, List.head?_cons] at hn
        obtain rfl := Option.mem_some.mp hn
        rw [List.length_append]
    obtain ⟨s', a', hstep, hinv, hlt⟩ := h.step hne hadd hwidth hsplit
      (hgroups group List.mem_cons_self) hnonempty
      (hsub group List.mem_cons_self)
      (hsegments _ List.mem_cons_self) hnext
    rw [← List.length_append] at hinv hlt
    obtain ⟨s'', a'', hloop, hinv, hend⟩ := ih
      (fun g hg => hsub g (List.mem_cons_of_mem _ hg)) hsplit'
      (fun g hg => hgroups g (List.mem_cons_of_mem _ hg))
      (fun seg hseg => hsegments seg (List.mem_cons_of_mem _ hseg)) hinv
    refine ⟨s'', a'', ?_, hinv, fun _ => hend (.inr hlt)⟩
    rw [wrapLoop, hstep]
    exact hloop

end Loop

/-! ## `wordWrapLine` -/

section Line

variable {u : Unicode} {graphemes : List Text} {maxWidth : Nat}

theorem wordWrapLine_of_rewrap (hne : ∀ g ∈ graphemes, g ≠ []) (hadd : Additive u graphemes)
    (hwidth : ∀ g ∈ graphemes, u.visibleWidth g ≤ maxWidth) (hline : graphemes.flatten ≠ [])
    (hmax : 0 < maxWidth) {groups : List (List Text)} (hgroups : groups.flatten = graphemes)
    (hisGroup : ∀ group ∈ groups, IsGroup u group) {preSegmented : Option (List SegmentData)}
    (hsegments : preSegmented.getD (indexed 0 (u.graphemes graphemes.flatten))
      = indexed 0 (groups.map List.flatten)) {fuel : Nat}
    (hsub : ∀ group ∈ groups, isPasteMarker group.flatten = true →
      u.graphemes group.flatten = group → maxWidth < u.visibleWidth group.flatten →
      ∃ subChunks, wordWrapLine u fuel group.flatten maxWidth none = some subChunks
        ∧ Partition u group.flatten maxWidth (indexed 0 group) subChunks) :
    ∃ chunks, wordWrapLine u (fuel + 1) graphemes.flatten maxWidth preSegmented = some chunks
      ∧ Partition u graphemes.flatten maxWidth (indexed 0 (groups.map List.flatten)) chunks := by
  have hgroupsNe : groups ≠ [] := by
    rintro rfl
    exact hline (congrArg List.flatten hgroups.symm)
  -- the line begins with a segment
  have hzero : Breakable u maxWidth (indexed 0 (groups.map List.flatten)) 0 := by
    obtain ⟨group, rest, rfl⟩ := List.exists_cons_of_ne_nil hgroupsNe
    exact ⟨⟨group.flatten, 0⟩, List.mem_cons_self, .inl rfl⟩
  rw [wordWrapLine, if_neg (by rintro (hnil | hnil) <;> [exact hline hnil; omega]), hsegments]
  split
  · next hfits =>
    refine ⟨_, rfl, ⟨rfl, List.length_pos_iff.mpr hline, Nat.le_refl _, ?_, rfl⟩, ?_, ?_⟩
    · show graphemes.flatten = slice graphemes.flatten 0 graphemes.flatten.length
      rw [slice, List.take_length, List.drop_zero]
    · intro chunk hchunk
      obtain rfl := List.eq_of_mem_singleton hchunk
      exact hfits
    · intro chunk hchunk
      obtain rfl := List.eq_of_mem_singleton hchunk
      exact hzero
  · have hinit : Inv u graphemes maxWidth (indexed 0 (groups.map List.flatten))
        ⟨[], 0, 0, none, 0⟩ 0 ([] : List Text).length :=
      ⟨⟨rfl, fun _ h => absurd h List.not_mem_nil, fun _ h => absurd h List.not_mem_nil⟩, hzero,
        rfl, Nat.le_refl _, Nat.zero_le _, rfl, Nat.zero_le _,
        fun _ hnone => absurd hnone (Option.not_mem_none _)⟩
    obtain ⟨s, a, hloop, hinv, hlt⟩ := @wrapLoop_inv u graphemes maxWidth _ hne hadd hwidth
      (wordWrapLine u fuel · maxWidth none) ⟨[], 0, 0, none, 0⟩ [] groups 0 hsub hgroups.symm
      hisGroup (fun seg hseg => hseg) hinit
    have hend := hinv.rows.push hne hadd (hlt (.inl hgroupsNe)) (Nat.le_refl _) hinv.fits
      hinv.breakable
    rw [← hinv.start, pos_length] at hend
    refine ⟨(s.push graphemes.flatten graphemes.flatten.length).chunks, ?_, ?_⟩
    · have hloop' : wrapLoop u graphemes.flatten maxWidth
          (wordWrapLine u fuel · maxWidth none) ⟨[], 0, 0, none, 0⟩
          (indexed 0 (groups.map List.flatten)) = some s := hloop
      simp only [hloop']
      rfl
    · refine ⟨?_, hend.fits, hend.breakable⟩
      have hconsecutive := hend.consecutive
      rwa [pos_length] at hconsecutive

theorem map_flatten_singletons (graphemes : List Text) :
    (graphemes.map ([·])).map List.flatten = graphemes := by
  rw [List.map_map]
  exact (List.map_congr_left fun g _ => List.flatten_singleton).trans (List.map_id _)

theorem wordWrapLine_graphemes (hne : ∀ g ∈ graphemes, g ≠ []) (hadd : Additive u graphemes)
    (hwidth : ∀ g ∈ graphemes, u.visibleWidth g ≤ maxWidth) (hline : graphemes.flatten ≠ [])
    (hmax : 0 < maxWidth) (hsame : u.graphemes graphemes.flatten = graphemes) (fuel : Nat) :
    ∃ chunks, wordWrapLine u (fuel + 1) graphemes.flatten maxWidth none = some chunks
      ∧ Partition u graphemes.flatten maxWidth (indexed 0 graphemes) chunks := by
  have hflatten := map_flatten_singletons graphemes
  have hpartition := @wordWrapLine_of_rewrap u graphemes maxWidth hne hadd hwidth hline hmax
    (graphemes.map ([·])) ?_ ?_ none ?_ fuel ?_
  · rwa [hflatten] at hpartition
  · rw [← List.flatMap_def, List.flatMap_singleton']
  · intro group hgroup
    obtain ⟨g, -, rfl⟩ := List.mem_map.mp hgroup
    exact .inl ⟨g, rfl⟩
  · rw [hflatten, Option.getD_none, hsame]
  · -- a grapheme fits into a row
    intro group hgroup _ _ hwide
    obtain ⟨g, hg, rfl⟩ := List.mem_map.mp hgroup
    have := hwidth g hg
    rw [List.flatten_singleton] at hwide
    omega

/-- **The chunks of a line** are its rows: for any graphemes that fit, and any markers merged among
them. -/
theorem wordWrapLine_partition {segments : List SegmentData} (hne : ∀ g ∈ graphemes, g ≠ [])
    (hadd : Additive u graphemes) (hwidth : ∀ g ∈ graphemes, u.visibleWidth g ≤ maxWidth)
    (hline : graphemes.flatten ≠ []) (hmax : 0 < maxWidth)
    (hmerged : Merged u graphemes segments) (fuel : Nat) :
    ∃ chunks, wordWrapLine u (fuel + 2) graphemes.flatten maxWidth (some segments) = some chunks
      ∧ Partition u graphemes.flatten maxWidth segments chunks := by
  obtain ⟨groups, hgroups, hisGroup, rfl⟩ := hmerged
  refine wordWrapLine_of_rewrap hne hadd hwidth hline hmax hgroups hisGroup
    (Option.getD_some) ?_
  intro group hgroup hmarker hsame _
  have hrun : group <:+: graphemes := by
    obtain ⟨front, back, rfl⟩ := List.append_of_mem hgroup
    rw [List.flatten_append, List.flatten_cons, ← List.append_assoc] at hgroups
    exact ⟨_, _, hgroups⟩
  have hmem {g : Text} (hg : g ∈ group) : g ∈ graphemes := hrun.subset hg
  refine wordWrapLine_graphemes (fun g hg => hne g (hmem hg))
    (fun run hin => hadd run (hin.trans hrun)) (fun g hg => hwidth g (hmem hg)) ?_ hmax hsame
    fuel
  intro hnil
  rw [hnil] at hmarker
  cases hmarker

end Line

/-- One row shows the column: those before it end there or earlier, those behind it begin later. -/
def InOneRow (chunks : List TextChunk) (column : Nat) : Prop :=
  ∃ front row back, chunks = front ++ row :: back
    ∧ row.startIndex ≤ column ∧ column < row.endIndex
    ∧ (∀ other ∈ front, other.endIndex ≤ column) ∧ ∀ other ∈ back, column < other.startIndex

theorem Consecutive.inOneRow {line : Text} {start stop : Nat} {chunks : List TextChunk}
    (h : Consecutive line start chunks stop) {column : Nat} (hstart : start ≤ column)
    (hstop : column < stop) : InOneRow chunks column := by
  induction chunks generalizing start with
  | nil =>
    obtain rfl := h
    omega
  | cons chunk rest ih =>
    obtain ⟨hfirst, -, -, -, hrest⟩ := h
    rcases Nat.lt_or_ge column chunk.endIndex with hlt | hge
    · refine ⟨[], chunk, rest, rfl, hfirst ▸ hstart, hlt, fun _ h => absurd h List.not_mem_nil, ?_⟩
      intro other hother
      exact hlt.trans_le (hrest.mem hother).1
    · obtain ⟨front, row, back, rfl, hle, hlt, hfront, hback⟩ := ih hrest hge
      refine ⟨chunk :: front, row, back, rfl, hle, hlt, ?_, hback⟩
      intro other hother
      rcases List.mem_cons.mp hother with rfl | hother
      · exact hge
      · exact hfront other hother

/-- **The rows of a line**: the chunks cut it into non-empty pieces that fit, and each column is in
one row. -/
theorem wordWrapLine_rows {u : Unicode} {graphemes : List Text} {maxWidth : Nat}
    {segments : List SegmentData} (hne : ∀ g ∈ graphemes, g ≠ []) (hadd : Additive u graphemes)
    (hwidth : ∀ g ∈ graphemes, u.visibleWidth g ≤ maxWidth) (hline : graphemes.flatten ≠ [])
    (hmax : 0 < maxWidth) (hmerged : Merged u graphemes segments) (fuel : Nat) :
    ∃ chunks, wordWrapLine u (fuel + 2) graphemes.flatten maxWidth (some segments) = some chunks
      ∧ Partition u graphemes.flatten maxWidth segments chunks
      ∧ ∀ column < graphemes.flatten.length, InOneRow chunks column := by
  obtain ⟨chunks, hchunks, hpartition⟩ :=
    wordWrapLine_partition hne hadd hwidth hline hmax hmerged fuel
  exact ⟨chunks, hchunks, hpartition, fun column hcolumn =>
    hpartition.consecutive.inOneRow (Nat.zero_le _) hcolumn⟩

/-- Every unit is a grapheme, one column wide, and only a space is white space. -/
def plain (zeroWidth : UInt16) : Unicode where
  visibleWidth text := (text.filter (· ≠ zeroWidth)).length
  isWhitespaceChar text := text = [32]
  cjkBreak _ := false
  graphemes text := text.map ([·])

theorem additive_plain (zeroWidth : UInt16) (graphemes : List Text) :
    Additive (plain zeroWidth) graphemes := by
  intro run _
  show (run.flatten.filter _).length = _
  rw [List.filter_flatten, List.length_flatten, List.map_map]
  rfl

theorem wordWrapLine_rows_marker :
    ∃ chunks, wordWrapLine (plain 0x200B) 2
        ([ascii "[paste #1]", ascii " ", ascii "x"].flatMap (·.map ([·]))).flatten 4
        (some (indexed 0 [ascii "[paste #1]", ascii " ", ascii "x"])) = some chunks
      ∧ Partition (plain 0x200B)
        ([ascii "[paste #1]", ascii " ", ascii "x"].flatMap (·.map ([·]))).flatten 4
        (indexed 0 [ascii "[paste #1]", ascii " ", ascii "x"]) chunks
      ∧ ∀ column < ([ascii "[paste #1]", ascii " ", ascii "x"].flatMap
          (·.map ([·]))).flatten.length, InOneRow chunks column :=
  wordWrapLine_rows (by decide +kernel) (additive_plain _ _) (by decide +kernel)
    (by decide +kernel) (by decide)
    ⟨[ascii "[paste #1]", ascii " ", ascii "x"].map (·.map ([·])), rfl, by
      intro group hgroup
      simp only [List.map_cons, List.map_nil, List.mem_cons, List.not_mem_nil, or_false] at hgroup
      rcases hgroup with rfl | rfl | rfl
      · exact .inr ⟨by decide +kernel, by decide +kernel⟩
      · exact .inl ⟨[32], by decide +kernel⟩
      · exact .inl ⟨[120], by decide +kernel⟩, by decide +kernel⟩ 0

/-- **In no columns** there are no rows: a line of zero-width characters is not shown at all. -/
theorem wordWrapLine_noColumns :
    ¬ ∀ (u : Unicode) (graphemes : List Text) (maxWidth : Nat) (segments : List SegmentData),
      (∀ g ∈ graphemes, g ≠ []) → Additive u graphemes →
      (∀ g ∈ graphemes, u.visibleWidth g ≤ maxWidth) → graphemes.flatten ≠ [] →
      Merged u graphemes segments → ∃ fuel chunks,
        wordWrapLine u fuel graphemes.flatten maxWidth (some segments) = some chunks
          ∧ Partition u graphemes.flatten maxWidth segments chunks := by
  intro h
  obtain ⟨fuel, chunks, hchunks, hpartition⟩ := h (plain 0x200B) [[0x200B]] 0
    (indexed 0 [[0x200B]]) (by decide) (additive_plain _ _) (by decide) (by decide)
    ⟨[[[0x200B]]], rfl, fun group hgroup => .inl ⟨_, List.eq_of_mem_singleton hgroup⟩, rfl⟩
  cases fuel with
  | zero => cases hchunks
  | succ fuel =>
    have hempty : some [⟨[], 0, 0⟩] = some chunks := hchunks
    obtain rfl := Option.some.inj hempty
    exact absurd hpartition.consecutive.2.1 (Nat.lt_irrefl 0)

end ThreeXhaust.Tui.WordWrap
