import ThreeXhaust.Lib.CodePoints

/-!
# Text a terminal may be given

`terminal-sanitizer.ts`: `sanitizeTerminalText` takes terminal control out of text that comes from
outside. Line ends become newlines, tabs become spaces, escape sequences are skipped with what
they carry, and the other control characters are dropped.

The scan skips by code units inside a sequence and by code points outside of it, so it may start in
the middle of a surrogate pair, and what it drops may bring two halves together. Neither makes a
control character: a control is a code unit of its own, and every unit put out was read as one.
-/

namespace ThreeXhaust.Runtime

open Utf16

/-! ## The source -/

def newline : UInt16 := 10

def ESCAPE : UInt16 := 0x1b

/-- `value.replace(/\r\n/gu, "\n")`. -/
def replaceCrlf : Text → Text
  | [] => []
  | [u] => [u]
  | u :: v :: rest =>
    if u = 13 ∧ v = 10 then 10 :: replaceCrlf rest else u :: replaceCrlf (v :: rest)

/-- `.replace(/\r/gu, "\n")`. -/
def replaceCr (value : Text) : Text := value.map fun u => if u = 13 then 10 else u

/-- `.replace(/\t/gu, "    ")`. -/
def replaceTab (value : Text) : Text :=
  value.flatMap fun u => if u = 9 then [32, 32, 32, 32] else [u]

/-- The units after a control sequence: those behind its final byte. -/
def skipControlSequence : Text → Text
  | [] => []
  | code :: rest => if 0x40 ≤ code ∧ code ≤ 0x7e then rest else skipControlSequence rest

/-- The units after a control string, which a bell may end and `ESC \` always does. -/
def skipControlString (bellTerminated : Bool) : Text → Text
  | [] => []
  | u :: rest =>
    if bellTerminated && u == 0x07 then rest
    else if u = ESCAPE ∧ rest.head? = some 92 then rest.tail
    else
      let part := codePointAt (u :: rest)
      skipControlString bellTerminated
        (if part.any (0xffff < ·) then rest.tail else rest)
termination_by text => text.length
decreasing_by
  split
  · rw [List.length_cons, List.length_tail]
    omega
  · rw [List.length_cons]
    omega

/-- The units after the escape that `text` starts with. -/
def afterEscape (text : Text) : Text :=
  let next := text[1]?
  if next = some 91 then skipControlSequence (text.drop 2)
  else if next = some 93 ∨ next = some 80 ∨ next = some 88 ∨ next = some 94 ∨ next = some 95 then
    skipControlString (next = some 93) (text.drop 2)
  else text.drop (if next = none then 1 else 2)

theorem length_skipControlSequence (text : Text) :
    (skipControlSequence text).length ≤ text.length := by
  induction text with
  | nil => exact Nat.le_refl 0
  | cons code rest ih =>
    rw [skipControlSequence, List.length_cons]
    split <;> omega

theorem length_skipControlString (bellTerminated : Bool) (text : Text) :
    (skipControlString bellTerminated text).length ≤ text.length := by
  fun_induction skipControlString bellTerminated text with
  | case1 => exact Nat.le_refl 0
  | case2 => exact Nat.le_succ _
  | case3 u rest =>
    rw [List.length_tail, List.length_cons]
    omega
  | case4 u rest _ _ part ih =>
    refine Nat.le_trans ih ?_
    split
    · rw [List.length_tail, List.length_cons]
      omega
    · exact Nat.le_succ _

theorem length_afterEscape {text : Text} (h : text ≠ []) :
    (afterEscape text).length < text.length := by
  have hpos := List.length_pos_iff.mpr h
  have hdrop : (text.drop 2).length < text.length := by
    rw [List.length_drop]
    omega
  rw [afterEscape]
  split
  · exact Nat.lt_of_le_of_lt (length_skipControlSequence _) hdrop
  split
  · exact Nat.lt_of_le_of_lt (length_skipControlString _ _) hdrop
  · rw [List.length_drop]
    split <;> omega

/-- A control that is dropped: C0 but for the newline, DEL and C1. -/
def isDropped (codePoint : Nat) : Bool :=
  (codePoint < 0x20 && codePoint != newline.toNat) || codePoint == 0x7f ||
    (0x80 ≤ codePoint && codePoint ≤ 0x9f)

/-- The `while` loop: what is put out of the units from the index on. -/
def scan (text : Text) : Text :=
  match _hpoint : codePointAt text with
  | none => []
  | some point =>
    let character := fromCodePoint point
    if character = [ESCAPE] then scan (afterEscape text)
    else if isDropped point then scan (text.drop character.length)
    else character ++ scan (text.drop character.length)
termination_by text.length
decreasing_by
  all_goals
    have hne : text ≠ [] := by
      rintro rfl
      cases _hpoint
    have hpos := List.length_pos_iff.mpr hne
  · exact length_afterEscape hne
  all_goals
    have hchar := length_fromCodePoint_pos point
    rw [List.length_drop]
    omega

def sanitizeTerminalText (value : Text) : Text :=
  let normalized := replaceTab (replaceCr (replaceCrlf value))
  scan normalized

/-! ## What is put out

A control character: C0, DEL or C1. -/

def IsControl (u : UInt16) : Prop := u < 0x20 ∨ u = 0x7f ∨ (0x80 ≤ u ∧ u ≤ 0x9f)

instance (u : UInt16) : Decidable (IsControl u) := by
  unfold IsControl
  infer_instance

variable {u : UInt16}

theorem isControl_iff :
    IsControl u ↔ u.toNat < 0x20 ∨ u.toNat = 0x7f ∨ (0x80 ≤ u.toNat ∧ u.toNat ≤ 0x9f) := by
  simp only [IsControl, UInt16.lt_iff_toNat_lt, UInt16.le_iff_toNat_le, ← UInt16.toNat_inj]
  exact Iff.rfl

theorem not_isControl_surrogate (h : isHighSurrogate u = true ∨ isLowSurrogate u = true)
    : ¬ IsControl u := by
  rw [isControl_iff]
  rw [isHighSurrogate_iff, isLowSurrogate_iff] at h
  omega

theorem isDropped_unit : isDropped u.toNat = true ↔ IsControl u ∧ u ≠ newline := by
  rw [isControl_iff, Ne, ← UInt16.toNat_inj]
  simp only [isDropped, Bool.or_eq_true, Bool.and_eq_true, decide_eq_true_eq, bne_iff_ne, ne_eq,
    beq_iff_eq]
  have hnewline : newline.toNat = 10 := rfl
  rw [hnewline]
  omega

/-- **The only control put out is the newline.** -/
theorem control_scan (text : Text) : ∀ u ∈ scan text, IsControl u → u = newline := by
  fun_induction scan text with
  | case1 => exact fun _ h => absurd h List.not_mem_nil
  | case2 text point h character hescape ih => exact ih
  | case3 text point h character hescape hdropped ih => exact ih
  | case4 text point h character hescape hdropped ih =>
    intro u hu hcontrol
    rcases List.mem_append.mp hu with hu | hu
    · -- the character was read as one unit, or its units are surrogates
      obtain ⟨v, _, -, hpoint, hunits⟩ | ⟨v, w, _, -, -, hunits, hhigh, hlow⟩ :=
        codePointAt_cases h
      · have huv : u = v := List.mem_singleton.mp (hunits ▸ hu)
        rw [hpoint, isDropped_unit, not_and, not_not] at hdropped
        rw [huv] at hcontrol ⊢
        exact hdropped hcontrol
      · rcases List.mem_cons.mp (hunits ▸ hu : u ∈ [v, w]) with rfl | huw
        · exact absurd hcontrol (not_isControl_surrogate (Or.inl hhigh))
        · rw [List.mem_singleton.mp huw] at hcontrol
          exact absurd hcontrol (not_isControl_surrogate (Or.inr hlow))
    · exact ih u hu hcontrol

/-- **Text whose only control is the newline is put out as it stands.** -/
theorem scan_eq_self {text : Text} (h : ∀ u ∈ text, IsControl u → u = newline) :
    scan text = text := by
  fun_induction scan text with
  | case1 text hnone => exact (codePointAt_eq_none hnone).symm
  | case2 text point hpoint character hescape ih =>
    -- the text starts with an escape, which is a control
    have hmem : ESCAPE ∈ text := by
      have happend := fromCodePoint_append_drop hpoint
      rw [show fromCodePoint point = [ESCAPE] from hescape] at happend
      rw [← happend]
      exact List.mem_cons_self
    exact absurd (h _ hmem (by decide)) (by decide)
  | case3 text point hpoint character hescape hdropped ih =>
    obtain ⟨u, rest, rfl, rfl, -⟩ | ⟨u, v, rest, -, hlarge, -⟩ := codePointAt_cases hpoint
    · obtain ⟨hcontrol, hne⟩ := isDropped_unit.mp hdropped
      exact absurd (h u List.mem_cons_self hcontrol) hne
    · -- a dropped code point is below the pairs
      simp only [isDropped, Bool.or_eq_true, Bool.and_eq_true, decide_eq_true_eq,
        beq_iff_eq] at hdropped
      omega
  | case4 text point hpoint character hescape hdropped ih =>
    rw [ih fun u hu => h u (List.mem_of_mem_drop hu)]
    exact fromCodePoint_append_drop hpoint

/-! ## Line ends and tabs -/

def expand : Text → Text
  | [] => []
  | [u] => if u = 13 then [10] else if u = 9 then [32, 32, 32, 32] else [u]
  | u :: v :: rest =>
    if u = 13 then if v = 10 then 10 :: expand rest else 10 :: expand (v :: rest)
    else if u = 9 then [32, 32, 32, 32] ++ expand (v :: rest)
    else u :: expand (v :: rest)

theorem replaceTab_cons (u : UInt16) (rest : Text) :
    replaceTab (u :: rest) = (if u = 9 then [32, 32, 32, 32] else [u]) ++ replaceTab rest :=
  List.flatMap_cons

/-- The three replacements are one pass: none makes what a later one takes. -/
theorem replace_eq_expand (value : Text) :
    replaceTab (replaceCr (replaceCrlf value)) = expand value := by
  fun_induction expand value with
  | case1 => rfl
  | case2 => rfl
  | case3 => rfl
  | case4 u hcr htab =>
    show replaceTab [if u = 13 then 10 else u] = [u]
    rw [if_neg hcr, replaceTab_cons, if_neg htab]
    rfl
  | case5 rest ih =>
    rw [replaceCrlf, if_pos ⟨rfl, rfl⟩]
    show replaceTab (10 :: replaceCr (replaceCrlf rest)) = _
    rw [replaceTab_cons, ih]
    rfl
  | case6 v rest hlf ih =>
    rw [replaceCrlf, if_neg fun h => hlf h.2]
    show replaceTab (10 :: replaceCr (replaceCrlf (v :: rest))) = _
    rw [replaceTab_cons, ih]
    rfl
  | case7 v rest hcr ih =>
    rw [replaceCrlf, if_neg fun h => hcr h.1]
    show replaceTab (9 :: replaceCr (replaceCrlf (v :: rest))) = _
    rw [replaceTab_cons, ih]
    rfl
  | case8 u v rest hcr htab ih =>
    rw [replaceCrlf, if_neg fun h => hcr h.1]
    show replaceTab ((if u = 13 then 10 else u) :: replaceCr (replaceCrlf (v :: rest))) = _
    rw [if_neg hcr, replaceTab_cons, if_neg htab, ih]
    rfl

theorem mem_replaceCrlf {value : Text} (h : u ∈ replaceCrlf value) : u ∈ value ∨ u = newline := by
  fun_induction replaceCrlf value with
  | case1 => exact Or.inl h
  | case2 => exact Or.inl h
  | case3 v w rest hcrlf ih =>
    rcases List.mem_cons.mp h with h | h
    · exact Or.inr h
    · exact (ih h).imp_left fun h => List.mem_cons_of_mem _ (List.mem_cons_of_mem _ h)
  | case4 v w rest hcrlf ih =>
    rcases List.mem_cons.mp h with rfl | h
    · exact Or.inl List.mem_cons_self
    · exact (ih h).imp_left (List.mem_cons_of_mem _)

theorem mem_expand {value : Text} (h : u ∈ expand value) :
    (u ∈ value ∧ u ≠ 13 ∧ u ≠ 9) ∨ u = newline ∨ u = 32 := by
  rw [← replace_eq_expand] at h
  obtain ⟨v, hv, hu⟩ := List.mem_flatMap.mp h
  split at hu
  · exact Or.inr (Or.inr (List.eq_of_mem_replicate (n := 4) hu))
  · next htab =>
    obtain rfl := List.mem_singleton.mp hu
    obtain ⟨w, hw, hv⟩ := List.mem_map.mp hv
    split at hv
    · exact Or.inr (Or.inl hv.symm)
    · next hcr =>
      obtain rfl := hv
      rcases mem_replaceCrlf hw with hw | hw
      · exact Or.inl ⟨hw, hcr, htab⟩
      · exact Or.inr (Or.inl hw)

theorem expand_eq_self {value : Text} (hcr : 13 ∉ value) (htab : 9 ∉ value) :
    expand value = value := by
  fun_induction expand value with
  | case1 => rfl
  | case2 => exact absurd List.mem_cons_self hcr
  | case3 => exact absurd List.mem_cons_self htab
  | case4 => rfl
  | case5 => exact absurd List.mem_cons_self hcr
  | case6 => exact absurd List.mem_cons_self hcr
  | case7 => exact absurd List.mem_cons_self htab
  | case8 u v rest _ _ ih =>
    rw [ih (fun h => hcr (List.mem_cons_of_mem _ h)) (fun h => htab (List.mem_cons_of_mem _ h))]

def IsGraphic (u : UInt16) : Prop := ¬ IsControl u ∧ u ≠ 32

instance (u : UInt16) : Decidable (IsGraphic u) := by
  unfold IsGraphic
  infer_instance

theorem filter_expand (value : Text) :
    (expand value).filter (IsGraphic ·) = value.filter (IsGraphic ·) := by
  have hcr : ¬ IsGraphic 13 := by decide
  have hlf : ¬ IsGraphic 10 := by decide
  have htab : ¬ IsGraphic 9 := by decide
  have hspace : ¬ IsGraphic 32 := by decide
  fun_induction expand value with
  | case1 => rfl
  | case2 => rfl
  | case3 => rfl
  | case4 => rfl
  | case5 rest ih => simp [hcr, hlf, ih]
  | case6 v rest _ ih =>
    rw [List.filter_cons_of_neg (by simpa), ih, List.filter_cons_of_neg (a := 13) (by simpa)]
  | case7 v rest _ ih =>
    simp only [List.filter_append, ih]
    rw [List.filter_cons_of_neg (a := 9) (by simpa)]
    simp [List.filter_cons, hspace]
  | case8 u v rest _ _ ih => simp only [List.filter_cons, ih]

/-! ## The sanitizer -/

theorem control_sanitizeTerminalText (value : Text) :
    ∀ u ∈ sanitizeTerminalText value, IsControl u → u = newline := control_scan _

theorem sanitizeTerminalText_eq_expand {value : Text}
    (h : ∀ u ∈ value, IsControl u → u = newline ∨ u = 13 ∨ u = 9) :
    sanitizeTerminalText value = expand value := by
  show scan (replaceTab (replaceCr (replaceCrlf value))) = _
  rw [replace_eq_expand]
  refine scan_eq_self fun u hu hcontrol => ?_
  rcases mem_expand hu with ⟨hu, hcr, htab⟩ | hu | rfl
  · rcases h u hu hcontrol with hu | hu | hu
    · exact hu
    · exact absurd hu hcr
    · exact absurd hu htab
  · exact hu
  · exact absurd hcontrol (by decide)

theorem sanitizeTerminalText_idempotent (value : Text) :
    sanitizeTerminalText (sanitizeTerminalText value) = sanitizeTerminalText value := by
  have hcontrol := control_sanitizeTerminalText value
  rw [sanitizeTerminalText_eq_expand fun u hu h => Or.inl (hcontrol u hu h)]
  refine expand_eq_self (fun h => ?_) (fun h => ?_)
  · exact absurd (hcontrol _ h (by decide)) (by decide)
  · exact absurd (hcontrol _ h (by decide)) (by decide)

/-- **What is put out holds no control but newlines and is put out again as it stands; of text
whose only controls are line ends and tabs it is all but these.** -/
theorem sanitizeTerminalText_sound (value : Text) :
    (∀ u ∈ sanitizeTerminalText value, IsControl u → u = newline) ∧
    sanitizeTerminalText (sanitizeTerminalText value) = sanitizeTerminalText value ∧
    ((∀ u ∈ value, IsControl u → u = newline ∨ u = 13 ∨ u = 9) →
      sanitizeTerminalText value = expand value ∧
      (sanitizeTerminalText value).filter (IsGraphic ·) = value.filter (IsGraphic ·)) := by
  refine ⟨control_sanitizeTerminalText value, sanitizeTerminalText_idempotent value, fun h => ?_⟩
  have heq := sanitizeTerminalText_eq_expand h
  refine ⟨heq, ?_⟩
  rw [heq]
  exact filter_expand value

/-- `"a
	b"`. -/
theorem sanitizeTerminalText_line :
    sanitizeTerminalText [97, 13, 10, 9, 98] = [97, 10, 32, 32, 32, 32, 98] :=
  ((sanitizeTerminalText_sound [97, 13, 10, 9, 98]).2.2 (by
    simp only [List.mem_cons, List.not_mem_nil, or_false, forall_eq_or_imp, forall_eq]
    decide)).1

end ThreeXhaust.Runtime
