import ThreeXhaust.Chord.OutputTail

/-!
# What `boundOutput` keeps

The two ranges are found on the bytes of a text. Each is shown to be the largest of the whole lines
that fit, or a part of one line that does not fit.

* **`tailRange_best`**, **`headRange_best`** — the ranges on the bytes.
* **`boundOutput_best`** — what is kept of a text, for both kinds of limits.
-/

namespace ThreeXhaust.Chord.Output

/-! ## Counting lines -/

theorem lineCount_append (front : Bytes) {rest : Bytes} (h : rest ≠ []) :
    lineCount (front ++ rest) = front.count 10 + lineCount rest := by
  rw [lineCount, lineCount, if_neg h, if_neg (List.append_ne_nil_of_right_ne_nil _ h),
    List.count_append, List.getLast?_append_of_ne_nil _ h, Nat.add_assoc]

theorem lineCount_le (bytes : Bytes) : lineCount bytes ≤ bytes.count 10 + 1 := by
  rw [lineCount]
  split
  · exact Nat.zero_le _
  · split <;> omega

theorem lineCount_pos {bytes : Bytes} (h : bytes ≠ []) : 0 < lineCount bytes := by
  rw [lineCount, if_neg h]
  split
  · next hlast =>
    have := List.count_pos_iff.mpr (List.mem_of_getLast? hlast)
    omega
  · exact Nat.succ_pos _

theorem lineCount_le_append (front rest : Bytes) :
    lineCount front ≤ lineCount (front ++ rest) ∧ lineCount rest ≤ lineCount (front ++ rest) := by
  by_cases h : rest = []
  · rw [h, List.append_nil]
    exact ⟨Nat.le_refl _, Nat.zero_le _⟩
  · have hpos := lineCount_pos h
    have hle := lineCount_le front
    rw [lineCount_append front h]
    omega

theorem lineCount_eq {bytes : Bytes} (h : bytes ≠ []) :
    lineCount bytes = (below bytes (searchEnd bytes)).length + 1 := by
  obtain hnil | ⟨init, last, rfl⟩ := List.eq_nil_or_concat bytes
  · exact absurd hnil h
  · rw [List.concat_eq_append, lineCount_append init (List.cons_ne_nil last []),
      searchEnd_append (List.cons_ne_nil last []), below_append, List.length_append,
      List.length_map, List.length_reverse, newlines_length]
    by_cases hlast : last = 10
    · subst hlast
      show _ + 1 = (below [10] 0).length + _ + 1
      rw [below_zero, List.length_nil]
      omega
    · have hsearch : (below [last] (searchEnd [last])).length = 0 := by
        have hle : (below [last] (searchEnd [last])).length ≤ (below [last] 1).length :=
          below_length_mono _ (Nat.sub_le 1 _)
        have hnone : [last].count 10 = 0 := List.count_eq_zero.mpr (by simpa using Ne.symm hlast)
        rw [show (1 : Nat) = [last].length from rfl, below_all, List.length_reverse,
          newlines_length, hnone] at hle
        omega
      have hcount : lineCount [last] = 1 := by simp [lineCount, hlast]
      omega

/-! ## Ranges of whole lines -/

/-- A line begins behind `front`. -/
def Ends (front : Bytes) : Prop := front = [] ∨ front.getLast? = some 10

/-- A line ends in front of `back`. -/
def Closes (kept back : Bytes) : Prop := back = [] ∨ kept.getLast? = some 10

theorem tailLines_spec (bytes : Bytes) {maxLines : Nat} (hmax : 0 < maxLines) (h : bytes ≠ []) :
    ∃ front rest, bytes = front ++ rest ∧ front.length = tailLines bytes maxLines ∧ rest ≠ []
      ∧ ((front = [] ∧ lineCount rest ≤ maxLines)
        ∨ (front.getLast? = some 10 ∧ lineCount rest = maxLines)) := by
  rw [tailLines_eq bytes hmax]
  cases hat : (below bytes (searchEnd bytes))[maxLines - 1]? with
  | none =>
    refine ⟨[], bytes, rfl, rfl, h, .inl ⟨rfl, ?_⟩⟩
    have := List.getElem?_eq_none_iff.mp hat
    rw [lineCount_eq h]
    omega
  | some i =>
    have hmem := mem_below.mp (List.mem_of_getElem? hat)
    have hi := (List.getElem?_eq_some_iff.mp hmem.1).1
    have hsplit : bytes = bytes.take (i + 1) ++ bytes.drop (i + 1) :=
      (List.take_append_drop _ _).symm
    have hlength : (bytes.take (i + 1)).length = i + 1 := by
      rw [List.length_take]
      omega
    have hlast : (bytes.take (i + 1)).getLast? = some 10 := by
      rw [List.getLast?_eq_getElem?, hlength, List.getElem?_take, if_pos (by omega)]
      exact hmem.1
    generalize bytes.take (i + 1) = front at hsplit hlength hlast
    generalize bytes.drop (i + 1) = rest at hsplit
    have hrest : rest ≠ [] := by
      rintro rfl
      rw [List.append_nil] at hsplit
      rw [hsplit, searchEnd, hlast, if_pos rfl, hlength] at hmem
      omega
    refine ⟨front, rest, hsplit, hlength, hrest, .inr ⟨hlast, ?_⟩⟩
    rw [lineCount_eq hrest]
    -- the newlines behind `front` come first, then the last one of `front`, which is `i`
    rw [hsplit, searchEnd_append hrest, below_append] at hat
    rcases Nat.lt_trichotomy (maxLines - 1) (below rest (searchEnd rest)).length with hlt | heq | hgt
    · rw [List.getElem?_append_left (by rwa [List.length_map]), List.getElem?_map] at hat
      obtain ⟨j, -, hj⟩ := Option.map_eq_some_iff.mp hat
      omega
    · omega
    · rw [List.getElem?_append_right (by rw [List.length_map]; omega), List.length_map] at hat
      have hsorted : (newlines front).reverse.Pairwise (· > ·) :=
        List.pairwise_reverse.mpr (newlines_sorted front)
      obtain ⟨hin, hat⟩ := List.getElem?_eq_some_iff.mp hat
      have hfirst := (List.pairwise_iff_getElem.mp hsorted) 0 _ (by omega) hin (by omega)
      have hlt := lt_of_mem_newlines (List.mem_reverse.mp (List.getElem_mem (by omega :
        0 < (newlines front).reverse.length)))
      omega

/-- A part of one line, which is longer than `maxBytes`. -/
structure Cut (maxBytes : Nat) (part : Bytes) : Prop where
  one : ∀ i < part.length - 1, part[i]? ≠ some 10
  long : maxBytes < part.length

theorem getElem?_of_ends {front : Bytes} (h : front.getLast? = some 10) (rest : Bytes) :
    0 < front.length ∧ (front ++ rest)[front.length - 1]? = some 10 := by
  rw [List.getLast?_eq_getElem?] at h
  have hlt := (List.getElem?_eq_some_iff.mp h).1
  exact ⟨by omega, by rw [List.getElem?_append_left hlt, h]⟩

theorem ends_take {bytes : Bytes} {i : Nat} (h : bytes[i]? = some 10) :
    Ends (bytes.take (i + 1)) ∧ (bytes.take (i + 1)).length = i + 1 := by
  have hi := (List.getElem?_eq_some_iff.mp h).1
  have hlength : (bytes.take (i + 1)).length = i + 1 := by
    rw [List.length_take]
    omega
  refine ⟨.inr ?_, hlength⟩
  rw [List.getLast?_eq_getElem?, hlength, List.getElem?_take, if_pos (by omega)]
  exact h

def Free (bytes : Bytes) (start limit : Nat) : Prop :=
  ∀ i, start ≤ i → i < limit → bytes[i]? ≠ some 10

theorem free_of_below (bytes : Bytes) (n : Nat) :
    Free bytes ((below bytes n).head?.elim 0 (· + 1)) n := by
  intro j hj hjn hat
  have hin := mem_below.mpr ⟨hat, hjn⟩
  have hsorted : (below bytes n).Pairwise (· > ·) :=
    List.pairwise_reverse.mpr ((newlines_sorted bytes).filter _)
  cases hbelow : below bytes n with
  | nil =>
    rw [hbelow] at hin
    cases hin
  | cons i rest =>
    rw [hbelow] at hin hsorted hj
    have hj : i + 1 ≤ j := hj
    rcases List.mem_cons.mp hin with rfl | hin
    · omega
    · have := (List.pairwise_cons.mp hsorted).1 j hin
      omega

theorem exists_lineStart (bytes : Bytes) (n : Nat) :
    ∃ before line, bytes = before ++ line ∧ Ends before ∧ before.length ≤ n
      ∧ Free bytes before.length n := by
  have hfree := free_of_below bytes n
  cases hbelow : below bytes n with
  | nil =>
    rw [hbelow] at hfree
    exact ⟨[], bytes, rfl, .inl rfl, Nat.zero_le _, hfree⟩
  | cons i rest =>
    have hmem := mem_below.mp (hbelow ▸ List.mem_cons_self : i ∈ below bytes n)
    obtain ⟨hends, hlength⟩ := ends_take hmem.1
    rw [hbelow] at hfree
    exact ⟨_, _, (List.take_append_drop (i + 1) bytes).symm, hends, by omega, by rwa [hlength]⟩

/-- The largest suffix of whole lines that fits, or a part of the last line, which does not fit. -/
structure TailBest (limits : OutputLimits) (front kept : Bytes) : Prop where
  bytes : kept.length ≤ limits.maxBytes
  lines : lineCount kept ≤ limits.maxLines
  whole : kept = [] ∨ Ends front ∨ ∃ before line, front ++ kept = before ++ line ∧ Ends before
    ∧ kept.length ≤ line.length ∧ Cut limits.maxBytes line
  best : ∀ before more, front = before ++ more → more ≠ [] → Ends before →
    limits.maxBytes < (more ++ kept).length ∨ limits.maxLines < lineCount (more ++ kept)

/-- The largest prefix of whole lines that fits, or a part of the first line, which does not fit. -/
structure HeadBest (limits : OutputLimits) (kept back : Bytes) : Prop where
  bytes : kept.length ≤ limits.maxBytes
  lines : lineCount kept ≤ limits.maxLines
  whole : kept = [] ∨ Closes kept back ∨ ∃ line after, kept ++ back = line ++ after
    ∧ Closes line after ∧ kept.length ≤ line.length ∧ Cut limits.maxBytes line
  best : ∀ more after, back = more ++ after → more ≠ [] → Closes (kept ++ more) after →
    limits.maxBytes < (kept ++ more).length ∨ limits.maxLines < lineCount (kept ++ more)

/-! ## The tail -/

theorem Free.before {before more kept : Bytes} {start limit : Nat}
    (hfree : Free (before ++ more ++ kept) start limit) (hmore : more ≠ [])
    (hlimit : (before ++ more).length ≤ limit + 1) (hends : Ends before) :
    before.length ≤ start := by
  by_contra hge
  have hpos := List.length_pos_iff.mpr hmore
  rw [List.length_append] at hlimit
  rcases hends with rfl | hlast
  · exact hge (Nat.zero_le _)
  · obtain ⟨hbefore, hat⟩ := getElem?_of_ends hlast (more ++ kept)
    rw [← List.append_assoc] at hat
    exact hfree _ (by omega) (by omega) hat

/-- The window by bytes: a line starts there and none before it in the last `maxBytes` bytes, or the
last line is longer than these. -/
theorem byteStart_spec (bytes : Bytes) {maxBytes : Nat} (hlong : maxBytes < bytes.length) :
    bytes.length - maxBytes ≤ byteStart bytes maxBytes
      ∧ ∃ limit, byteStart bytes maxBytes ≤ limit + 1
        ∧ Free bytes (bytes.length - maxBytes - 1) limit
        ∧ (Ends (bytes.take (byteStart bytes maxBytes)) ∨ limit = bytes.length - 1) := by
  have hcharacter : bytes.length - maxBytes ≤ characterStart bytes (bytes.length - maxBytes)
      ∧ characterStart bytes (bytes.length - maxBytes) ≤ bytes.length - 1 + 1 := by
    have hlen := skipContinuation_le (Nat.sub_le bytes.length maxBytes)
    rw [skipContinuation] at hlen
    rw [characterStart]
    omega
  simp only [byteStart]
  cases hindex : indexOf bytes (bytes.length - maxBytes - 1) with
  | none =>
    refine ⟨hcharacter.1, bytes.length - 1, hcharacter.2, fun i hi _ hat => ?_, .inr rfl⟩
    have := List.find?_eq_none.mp hindex i (mem_newlines.mpr hat)
    exact this (by simpa using hi)
  | some newline =>
    have hat := mem_newlines.mp (List.mem_of_find?_eq_some hindex)
    have hge : bytes.length - maxBytes - 1 ≤ newline := by simpa using List.find?_some hindex
    -- it is the first one
    have hfirst : Free bytes (bytes.length - maxBytes - 1) newline := by
      intro i hi hlt hi10
      obtain ⟨as, bs, hsplit, has⟩ := (List.find?_eq_some_iff_append.mp hindex).2
      have hin := mem_newlines.mpr hi10
      have hsorted := newlines_sorted bytes
      rw [hsplit] at hin hsorted
      rcases List.mem_append.mp hin with hin | hin
      · simpa [hi] using has i hin
      · have htail := List.pairwise_cons.mp (List.pairwise_append.mp hsorted).2.1
        rcases List.mem_cons.mp hin with rfl | hin
        · exact Nat.lt_irrefl _ hlt
        · exact Nat.lt_asymm hlt (htail.1 i hin)
    simp only
    split
    · exact ⟨by omega, newline, Nat.le_refl _, hfirst, .inl (ends_take hat).1⟩
    · next hlast =>
      have hnewline := (List.getElem?_eq_some_iff.mp hat).1
      exact ⟨hcharacter.1, bytes.length - 1, hcharacter.2,
        fun i hi hlt => hfirst i hi (by omega), .inr rfl⟩

theorem tailRange_best {limits : OutputLimits} {front kept : Bytes}
    (hfront : front.length = (tailRange (front ++ kept) limits).1) :
    TailBest limits front kept := by
  have hlength : (front ++ kept).length = front.length + kept.length := List.length_append
  rw [tailRange] at hfront
  by_cases hzero : limits.maxLines = 0 ∨ limits.maxBytes = 0
  · rw [if_pos hzero] at hfront
    obtain rfl : kept = [] := List.eq_nil_of_length_eq_zero (by omega)
    refine ⟨Nat.zero_le _, Nat.zero_le _, .inl rfl, fun before more _ hmore _ => ?_⟩
    have hmoreLength := List.length_pos_iff.mpr hmore
    have hlines := lineCount_pos hmore
    rw [List.append_nil]
    omega
  rw [if_neg hzero] at hfront
  by_cases hnil : front ++ kept = []
  · obtain ⟨rfl, rfl⟩ := List.append_eq_nil_iff.mp hnil
    exact ⟨Nat.zero_le _, Nat.zero_le _, .inl rfl, fun before more hsplit hmore =>
      absurd (List.append_eq_nil_iff.mp hsplit.symm).2 hmore⟩
  obtain ⟨before, rest, hsplit, hbefore, hrest, hlines⟩ :=
    tailLines_spec (front ++ kept) (by omega : 0 < limits.maxLines) hnil
  have hfew : lineCount rest ≤ limits.maxLines := by
    rcases hlines with ⟨-, hle⟩ | ⟨-, heq⟩
    · exact hle
    · exact Nat.le_of_eq heq
  have htotal := congrArg List.length hsplit
  rw [hlength, List.length_append] at htotal
  simp only at hfront
  by_cases hlong : (front ++ kept).length - tailLines (front ++ kept) limits.maxLines
      > limits.maxBytes
  · rw [if_pos hlong] at hfront
    replace hfront : front.length = byteStart (front ++ kept) limits.maxBytes := hfront
    obtain ⟨hwindow, limit, hlimit, hfree, hshape⟩ :=
      byteStart_spec (front ++ kept) (by omega : limits.maxBytes < _)
    rw [← hfront] at hwindow hlimit hshape
    refine ⟨by omega, ?_, ?_, ?_⟩
    · -- the window by bytes lies in the window by lines
      have hdrop : kept = rest.drop (front.length - before.length) := by
        have := congrArg (List.drop front.length) hsplit
        rwa [List.drop_left, List.drop_append, List.drop_of_length_le (by omega),
          List.nil_append] at this
      have hmono := (lineCount_le_append (rest.take (front.length - before.length)) kept).2
      rw [hdrop, List.take_append_drop, ← hdrop] at hmono
      exact hmono.trans hfew
    · rw [List.take_left] at hshape
      rcases hshape with hends | rfl
      · exact .inr (.inl hends)
      · obtain ⟨before, line, hline, hends, hle, hnone⟩ :=
          exists_lineStart (front ++ kept) ((front ++ kept).length - limits.maxBytes - 1)
        have hlineLength := congrArg List.length hline
        rw [hlength, List.length_append] at hlineLength
        refine .inr (.inr ⟨before, line, hline, hends, by omega, fun i hi hat => ?_, by omega⟩)
        have hat' : (front ++ kept)[before.length + i]? = some 10 := by
          rw [hline, List.getElem?_append_right (Nat.le_add_right _ _), Nat.add_sub_cancel_left]
          exact hat
        rcases Nat.lt_or_ge (before.length + i) ((front ++ kept).length - limits.maxBytes - 1)
          with hlt | hge
        · exact hnone _ (Nat.le_add_right _ _) hlt hat'
        · exact hfree _ hge (by omega) hat'
    · rintro before more rfl hmore hends
      have hle := hfree.before hmore hlimit hends
      have hfrontLength : (before ++ more).length = before.length + more.length :=
        List.length_append
      have hmoreLength : (more ++ kept).length = more.length + kept.length := List.length_append
      left
      omega
  · rw [if_neg hlong] at hfront
    obtain ⟨rfl, rfl⟩ := List.append_inj hsplit (hfront.trans hbefore.symm)
    refine ⟨by omega, hfew, .inr (.inl (hlines.imp And.left And.left)), ?_⟩
    rintro before more rfl hmore -
    right
    rcases hlines with ⟨hnone, -⟩ | ⟨hlast, heq⟩
    · exact absurd (List.append_eq_nil_iff.mp hnone).2 hmore
    · rw [List.getLast?_append_of_ne_nil _ hmore] at hlast
      have := List.count_pos_iff.mpr (List.mem_of_getLast? hlast)
      rw [lineCount_append more hrest]
      omega

/-! ## The head -/

theorem headEnd_spec (bytes : Bytes) {maxLines : Nat} (hmax : 0 < maxLines) :
    ∃ front rest, bytes = front ++ rest ∧ front.length = headEnd bytes maxLines
      ∧ ((rest = [] ∧ lineCount front ≤ maxLines)
        ∨ (front.getLast? = some 10 ∧ lineCount front = maxLines)) := by
  rw [headEnd]
  cases hat : (newlines bytes)[maxLines - 1]? with
  | none =>
    have hfew := List.getElem?_eq_none_iff.mp hat
    have hle := lineCount_le bytes
    rw [newlines_length] at hfew
    exact ⟨bytes, [], (List.append_nil _).symm, rfl, .inl ⟨rfl, by omega⟩⟩
  | some i =>
    have hi := mem_newlines.mp (List.mem_of_getElem? hat)
    obtain ⟨hends, hlength⟩ := ends_take hi
    have hsplit : bytes = bytes.take (i + 1) ++ bytes.drop (i + 1) :=
      (List.take_append_drop _ _).symm
    generalize bytes.take (i + 1) = front at hsplit hends hlength
    generalize bytes.drop (i + 1) = rest at hsplit
    have hlast : front.getLast? = some 10 := by
      rcases hends with rfl | hlast
      · cases hlength
      · exact hlast
    refine ⟨front, rest, hsplit, hlength, .inr ⟨hlast, ?_⟩⟩
    -- `i` is the last newline of `front`
    rw [hsplit, newlines_append] at hat
    rcases Nat.lt_or_ge (maxLines - 1) (newlines front).length with hlt | hge
    · rw [List.getElem?_append_left hlt] at hat
      obtain ⟨hin, hat⟩ := List.getElem?_eq_some_iff.mp hat
      have hcount : (newlines front).length = maxLines := by
        by_contra hmany
        have hnext := (List.pairwise_iff_getElem.mp (newlines_sorted front)) (maxLines - 1)
          maxLines hin (by omega) (by omega)
        have hlt := lt_of_mem_newlines (List.getElem_mem (by omega :
          maxLines < (newlines front).length))
        omega
      rw [newlines_length] at hcount
      rw [lineCount, if_neg (fun hnil => by rw [hnil] at hlast; cases hlast), if_pos hlast, hcount]
      rfl
    · rw [List.getElem?_append_right hge, List.getElem?_map] at hat
      obtain ⟨j, -, hj⟩ := Option.map_eq_some_iff.mp hat
      omega

theorem exists_firstLine {bytes : Bytes} {maxBytes : Nat} (hlong : maxBytes < bytes.length)
    (hfree : Free bytes 0 maxBytes) :
    ∃ line after, bytes = line ++ after ∧ Closes line after ∧ Cut maxBytes line := by
  cases hfirst : newlines bytes with
  | nil =>
    refine ⟨bytes, [], (List.append_nil _).symm, .inl rfl, fun i _ hat => ?_, hlong⟩
    have := mem_newlines.mpr hat
    rw [hfirst] at this
    cases this
  | cons j rest =>
    have hj := mem_newlines.mp (hfirst ▸ List.mem_cons_self : j ∈ newlines bytes)
    obtain ⟨hends, hlength⟩ := ends_take hj
    have hge : maxBytes ≤ j := by
      by_contra hlt
      exact hfree j (Nat.zero_le _) (by omega) hj
    refine ⟨_, _, (List.take_append_drop (j + 1) bytes).symm, .inr ?_, fun i hi hat => ?_,
      by omega⟩
    · refine hends.resolve_left fun hnil => ?_
      rw [hnil] at hlength
      cases hlength
    · rw [List.getElem?_take, if_pos (by omega)] at hat
      have hin := mem_newlines.mpr hat
      have hsorted := newlines_sorted bytes
      rw [hfirst] at hin hsorted
      rcases List.mem_cons.mp hin with rfl | hin
      · omega
      · have := (List.pairwise_cons.mp hsorted).1 i hin
        omega

theorem headRange_best {limits : OutputLimits} {kept back : Bytes}
    (hkept : kept.length = (headRange (kept ++ back) limits).2) : HeadBest limits kept back := by
  have hlength : (kept ++ back).length = kept.length + back.length := List.length_append
  rw [headRange] at hkept
  by_cases hzero : limits.maxLines = 0 ∨ limits.maxBytes = 0
  · rw [if_pos hzero] at hkept
    obtain rfl : kept = [] := List.eq_nil_of_length_eq_zero hkept
    refine ⟨Nat.zero_le _, Nat.zero_le _, .inl rfl, fun more after _ hmore _ => ?_⟩
    have hmoreLength := List.length_pos_iff.mpr hmore
    have hlines := lineCount_pos hmore
    rw [List.nil_append]
    omega
  rw [if_neg hzero] at hkept
  simp only at hkept
  obtain ⟨front, rest, hsplit, hfront, hlines⟩ :=
    headEnd_spec (kept ++ back) (by omega : 0 < limits.maxLines)
  have hfew : lineCount front ≤ limits.maxLines := by
    rcases hlines with ⟨-, hle⟩ | ⟨-, heq⟩
    · exact hle
    · exact Nat.le_of_eq heq
  have htotal := congrArg List.length hsplit
  rw [hlength, List.length_append] at htotal
  by_cases hlong : headEnd (kept ++ back) limits.maxLines > limits.maxBytes
  · rw [if_pos hlong] at hkept
    have hfree := free_of_below (kept ++ back) limits.maxBytes
    have hlast : lastIndexOf (kept ++ back) (limits.maxBytes - 1)
        = (below (kept ++ back) limits.maxBytes).head? := by
      rw [lastIndexOf, Nat.sub_add_cancel (by omega)]
    rw [hlast] at hkept
    -- what is kept fits, ends a line or is a part of the first, and no line ends behind it in time
    obtain ⟨hfits, hfree', hshape⟩ : kept.length ≤ limits.maxBytes
        ∧ Free (kept ++ back) kept.length limits.maxBytes
        ∧ (Closes kept back ∨ Free (kept ++ back) 0 limits.maxBytes) := by
      cases hhead : (below (kept ++ back) limits.maxBytes).head? with
      | none =>
        rw [hhead] at hkept hfree
        replace hkept : kept.length = characterEnd _ _ := hkept
        have hle := characterEnd_le (kept ++ back) limits.maxBytes
        exact ⟨by omega, fun i _ => hfree i (Nat.zero_le _), .inr hfree⟩
      | some newline =>
        rw [hhead] at hkept hfree
        replace hkept : kept.length = newline + 1 := hkept
        have hmem := mem_below.mp (List.mem_of_mem_head? hhead)
        refine ⟨by omega, by rwa [hkept], .inl (.inr ?_)⟩
        rw [List.getLast?_eq_getElem?, hkept, Nat.add_sub_cancel,
          ← List.getElem?_append_left (by omega : newline < kept.length)]
        exact hmem.1
    refine ⟨hfits, ?_, ?_, ?_⟩
    · have htake : front.take kept.length = kept := by
        have := congrArg (List.take kept.length) hsplit
        rwa [List.take_left, List.take_append_of_le_length (by omega), eq_comm] at this
      have hmono := (lineCount_le_append kept (front.drop kept.length)).1
      rw [← htake, htake] at hmono
      conv_rhs at hmono => rw [← htake, List.length_take, Nat.min_eq_left (by omega)]
      rw [List.take_append_drop] at hmono
      exact hmono.trans hfew
    · rcases hshape with hcloses | hfirst
      · exact .inr (.inl hcloses)
      · obtain ⟨line, after, hline, hcloses, hcut⟩ :=
          exists_firstLine (by omega : limits.maxBytes < (kept ++ back).length) hfirst
        exact .inr (.inr ⟨line, after, hline, hcloses, hfits.trans (Nat.le_of_lt hcut.long), hcut⟩)
    · rintro more after rfl hmore hcloses
      left
      by_contra hshort
      have hmoreLength := List.length_pos_iff.mpr hmore
      have hboth : (kept ++ more).length = kept.length + more.length := List.length_append
      rcases hcloses with rfl | hends
      · rw [List.append_nil] at htotal
        omega
      · obtain ⟨hpos, hat⟩ := getElem?_of_ends hends after
        rw [List.append_assoc] at hat
        exact hfree' _ (by omega) (by omega) hat
  · rw [if_neg hlong] at hkept
    obtain ⟨rfl, rfl⟩ := List.append_inj hsplit (hkept.trans hfront.symm)
    refine ⟨by omega, hfew, .inr (.inl (hlines.imp And.left And.left)), ?_⟩
    rintro more after rfl hmore -
    right
    rcases hlines with ⟨hnone, -⟩ | ⟨hlast, heq⟩
    · exact absurd (List.append_eq_nil_iff.mp hnone).1 hmore
    · have hne : kept ≠ [] := fun hnil => by rw [hnil] at hlast; cases hlast
      have hcount : lineCount kept = kept.count 10 := by
        rw [lineCount, if_neg hne, if_pos hlast, Nat.add_zero]
      have := lineCount_pos hmore
      rw [lineCount_append kept hmore]
      omega

end ThreeXhaust.Chord.Output
