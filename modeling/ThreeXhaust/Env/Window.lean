import ThreeXhaust.Chord.OutputTail

/-!
# The daemon's output window

Undelivered command output is held and coalesced. Text followed by more than the window can never
be in the caller's tail, so `trim` replaces it by counts, and an event carries these in front of
the text that is left. The pace of deliveries is not modelled.

`Keeps` says what is held of the text pushed since the last delivery; `push` keeps it
(`Keeps.push`) by way of what a trim removes (`trim_eq`).
-/

namespace ThreeXhaust.Env

open Chord.Output

structure Window where
  maxBytes : Nat
  maxLines : Nat

def Window.limits (w : Window) : OutputLimits := ⟨w.maxBytes, w.maxLines, .tail⟩

structure Skipped where
  bytes : Nat
  newlines : Nat
  endsWithNewline : Bool

/-- One output event: its stream, text, and the output omitted right before it. -/
structure Event where
  stream : String
  text : List Char
  skipped : Option OutputSkip

structure Pending where
  window : Window
  /-- Undelivered text in arrival order, by stream. -/
  segments : List (String × List Char)
  bytes : Nat
  newlines : Nat
  skipped : Option Skipped

def textLen (text : List Char) : Nat := (utf8Chars text).length

def newlineCount (text : List Char) : Nat := (utf8Chars text).count 10

def checkedSub (a b : Nat) : Option Nat := if b ≤ a then some (a - b) else none

def isCharBoundary (text : List Char) (index : Nat) : Bool :=
  index = 0 || index = textLen text || (utf8Chars text)[index]?.any fun b => !isContinuation b

/-- The loop of `trim` from an index down to a character boundary. -/
@[grind =] def boundaryBefore (text : List Char) : Nat → Nat
  | 0 => 0
  | n + 1 => if isCharBoundary text (n + 1) then n + 1 else boundaryBefore text n

/-- Push a text to the last segment where the stream is the same, as a new one elsewhere. -/
@[grind =] def pushSegment (stream : String) (text : List Char) :
    List (String × List Char) → List (String × List Char)
  | [] => [(stream, text)]
  | [(last, existing)] =>
    if last = stream then [(last, existing ++ text)] else [(last, existing), (stream, text)]
  | first :: second :: rest => first :: pushSegment stream text (second :: rest)

/-- Whether the text after a cut still proves the cut text is outside the window. -/
def proves (window : Window) (bytes newlines : Nat) : Bool :=
  bytes > window.maxBytes || newlines > window.maxLines

@[grind =] def wholeSegments (window : Window) : List (String × List Char) → Nat → Nat → List Char →
    Option (List (String × List Char) × Nat × Nat × List Char)
  | first :: second :: rest, bytes, newlines, removed => do
    let bytesAfter ← checkedSub bytes (textLen first.2)
    let newlinesAfter ← checkedSub newlines (newlineCount first.2)
    if proves window bytesAfter newlinesAfter then
      wholeSegments window (second :: rest) bytesAfter newlinesAfter (removed ++ first.2)
    else some (first :: second :: rest, bytes, newlines, removed)
  | segments, bytes, newlines, removed => some (segments, bytes, newlines, removed)

/-- By bytes: keep more than `max_bytes` overall. -/
def byteCut (window : Window) (first : List Char) (restBytes : Nat) : Nat :=
  let keepBytes := window.maxBytes + 1 - restBytes
  if textLen first > keepBytes then boundaryBefore first (textLen first - keepBytes) else 0

/-- Where the first remaining segment is cut. By lines: keep more than `max_lines` newlines overall,
starting at a newline of this segment. None where the newline is out of range. -/
def cutOf (window : Window) (first : List Char) (restBytes restNewlines : Nat) : Option Nat :=
  let cut := byteCut window first restBytes
  let keepNewlines := window.maxLines + 1 - restNewlines
  if keepNewlines > 0 then
    let positions := newlines (utf8Chars first)
    if positions.length ≥ keepNewlines then
      positions[positions.length - keepNewlines]?.map (max cut)
    else some cut
  else some (textLen first)

namespace Pending

def new (window : Window) : Pending := ⟨window, [], 0, 0, none⟩

def count (p : Pending) (removed : List Char) : Pending :=
  if removed = [] then p
  else
    let skipped := p.skipped.getD ⟨0, 0, false⟩
    { p with skipped := some {
        bytes := skipped.bytes + textLen removed
        newlines := skipped.newlines + newlineCount removed
        endsWithNewline := endsWithNewline removed } }

def drain (p : Pending) (stream : String) (first : List Char)
    (rest : List (String × List Char)) (cut : Nat) (removed : List Char) : Option Pending :=
  if cut > 0 then do
    let (front, kept) ← splitAtByte cut first
    let bytes ← checkedSub p.bytes (textLen front)
    let newlines ← checkedSub p.newlines (newlineCount front)
    let segments := if kept = [] then rest else (stream, kept) :: rest
    some ({ p with segments, bytes, newlines }.count (removed ++ front))
  else some (p.count removed)

/-- `trim`: replace the longest prefix whose remainder still proves exclusion by counts. -/
def trim (p : Pending) : Option Pending := do
  let (segments, bytes, newlines, removed) ←
    wholeSegments p.window p.segments p.bytes p.newlines []
  match segments with
  | [] => none
  | (stream, first) :: rest => do
    let restBytes ← checkedSub bytes (textLen first)
    let restNewlines ← checkedSub newlines (newlineCount first)
    let cut ← cutOf p.window first restBytes restNewlines
    drain { p with segments := (stream, first) :: rest, bytes, newlines } stream first rest cut
      removed

def push (p : Pending) (stream : String) (text : List Char) : Option Pending :=
  if text = [] then some p
  else
    let p := { p with
      bytes := p.bytes + textLen text
      newlines := p.newlines + newlineCount text
      segments := pushSegment stream text p.segments }
    -- trimming costs a pass over the held text; do it once a few windows have accumulated
    if p.bytes > 4 * (p.window.maxBytes + 1) || p.newlines > 4 * (p.window.maxLines + 1) then p.trim
    else some p

/-- `take`: deliver everything held, as one event behind a skip, or as one event per segment. -/
def take (p : Pending) : List Event × Pending :=
  let events := match p.skipped with
    | some skipped => [{
        stream := (p.segments.getLast?.map Prod.fst).getD "stdout"
        text := (p.segments.map Prod.snd).flatten
        skipped := some ⟨skipped.bytes, skipped.newlines, skipped.endsWithNewline⟩ }]
    | none => p.segments.map fun (stream, text) => { stream, text, skipped := none }
  (events, { p with segments := [], bytes := 0, newlines := 0, skipped := none })

end Pending

/-! ## Where a segment is cut -/

theorem checkedSub_add (a b : Nat) : checkedSub (a + b) a = some b := by
  rw [checkedSub, if_pos (Nat.le_add_right a b), Nat.add_sub_cancel_left]

theorem boundary_of_isCharBoundary {text : List Char} {n : Nat} (hn : n ≤ textLen text)
    (h : isCharBoundary text n = true) : Boundary text n := by
  rw [isCharBoundary, Bool.or_eq_true, Bool.or_eq_true, decide_eq_true_iff,
    decide_eq_true_iff] at h
  rcases h with (rfl | rfl) | h
  · exact boundary_zero text
  · exact boundary_end text
  · apply boundary_of_not_continuation hn
    intro b hb
    rw [hb] at h
    simpa using h

theorem boundaryBefore_le (text : List Char) (n : Nat) : boundaryBefore text n ≤ n := by
  induction n with
  | zero => exact Nat.le_refl 0
  | succ n ih =>
    rw [boundaryBefore]
    split
    · exact Nat.le_refl _
    · exact Nat.le_succ_of_le ih

theorem boundary_boundaryBefore (text : List Char) {n : Nat} (h : n ≤ textLen text) :
    Boundary text (boundaryBefore text n) := by
  induction n with
  | zero => exact boundary_zero text
  | succ n ih =>
    rw [boundaryBefore]
    split
    · rename_i hat
      exact boundary_of_isCharBoundary h hat
    · exact ih (Nat.le_of_succ_le h)

theorem byteCut_boundary (w : Window) (first : List Char) (restBytes : Nat) :
    Boundary first (byteCut w first restBytes) := by
  simp only [byteCut]
  split
  · exact boundary_boundaryBefore first (Nat.sub_le _ _)
  · exact boundary_zero first

variable {w : Window}

theorem proves_behind_newline {front kept rest : List Char}
    (hmany : (newlines (utf8Chars (front ++ kept))).length ≥ w.maxLines + 1 - newlineCount rest)
    (hposition : (newlines (utf8Chars (front ++ kept)))[
      (newlines (utf8Chars (front ++ kept))).length - (w.maxLines + 1 - newlineCount rest)]? =
        some (textLen front)) : Proves w.limits (kept ++ rest) := by
  rw [utf8Chars_append] at hposition hmany
  have hcount := le_count_of_newlines hposition
  rw [Nat.sub_sub_self hmany, newlineCount, count_newline, count_newline] at hcount
  right
  show w.maxLines < (kept ++ rest).count '\n'
  rw [List.count_append]
  omega

/-- **A cut** lies at a character boundary, and what is left behind it, with the rest, still holds
more than the window. -/
theorem cutOf_eq (w : Window) (first rest : List Char) :
    ∃ cut front kept, cutOf w first (textLen rest) (newlineCount rest) = some cut ∧
      first = front ++ kept ∧ textLen front = cut ∧ splitAtByte cut first = some (front, kept) ∧
      (0 < cut → Proves w.limits (kept ++ rest)) := by
  -- what is left of the bytes once the byte limit cut
  have hbyte : 0 < byteCut w first (textLen rest) →
      byteCut w first (textLen rest) + (w.maxBytes + 1) ≤ textLen first + textLen rest := by
    intro hpos
    simp only [byteCut] at hpos ⊢
    split
    · have hle := boundaryBefore_le first (textLen first - (w.maxBytes + 1 - textLen rest))
      omega
    · rename_i hshort
      rw [if_neg hshort] at hpos
      omega
  -- it is enough to give the cut, its boundary and why the remainder proves
  have hsplit : ∀ cut, Boundary first cut →
      (∀ front kept, first = front ++ kept → textLen front = cut → 0 < cut →
        Proves w.limits (kept ++ rest)) →
      ∃ front kept, first = front ++ kept ∧ textLen front = cut ∧
        splitAtByte cut first = some (front, kept) ∧
        (0 < cut → Proves w.limits (kept ++ rest)) := by
    intro cut hboundary hproves
    obtain ⟨front, kept, hfirst, hlen, hrun⟩ := hboundary.split
    exact ⟨front, kept, hfirst, hlen, hrun, hproves front kept hfirst hlen⟩
  have hbyteProves : ∀ front kept, first = front ++ kept →
      textLen front = byteCut w first (textLen rest) → 0 < byteCut w first (textLen rest) →
      Proves w.limits (kept ++ rest) := by
    intro front kept hfirst hlen hpos
    have htotal := hbyte hpos
    left
    have hfirstLen := congrArg textLen hfirst
    simp only [textLen, utf8Chars_append, List.length_append] at hfirstLen htotal hlen ⊢
    show w.maxBytes < _
    omega
  simp only [cutOf]
  by_cases hkeep : w.maxLines + 1 - newlineCount rest > 0
  · rw [if_pos hkeep]
    by_cases hmany : (newlines (utf8Chars first)).length ≥ w.maxLines + 1 - newlineCount rest
    · -- the line limit offers a newline of this segment
      rw [if_pos hmany]
      have hin : (newlines (utf8Chars first)).length - (w.maxLines + 1 - newlineCount rest) <
          (newlines (utf8Chars first)).length := by omega
      obtain ⟨position, hposition⟩ : ∃ position, (newlines (utf8Chars first))[
          (newlines (utf8Chars first)).length - (w.maxLines + 1 - newlineCount rest)]? =
            some position := ⟨_, List.getElem?_eq_getElem hin⟩
      rw [hposition, Option.map_some]
      have hboundary := (boundary_newline
        (mem_newlines.mp (List.mem_of_getElem? hposition))).1
      rcases Nat.le_total position (byteCut w first (textLen rest)) with hmax | hmax
      · rw [Nat.max_eq_left hmax]
        obtain ⟨front, kept, h⟩ := hsplit _ (byteCut_boundary w first _) hbyteProves
        exact ⟨_, front, kept, rfl, h⟩
      · rw [Nat.max_eq_right hmax]
        obtain ⟨front, kept, h⟩ := hsplit _ hboundary (by
          rintro front kept rfl rfl _
          exact proves_behind_newline hmany hposition)
        exact ⟨_, front, kept, rfl, h⟩
    · rw [if_neg hmany]
      obtain ⟨front, kept, h⟩ := hsplit _ (byteCut_boundary w first _) hbyteProves
      exact ⟨_, front, kept, rfl, h⟩
  · -- the rest alone holds more lines than the window
    rw [if_neg hkeep]
    obtain ⟨front, kept, h⟩ := hsplit _ (boundary_end first) (by
      intro front kept _ _ _
      apply Proves.append_left
      right
      simp only [newlineCount, count_newline] at hkeep
      show w.maxLines < _
      omega)
    exact ⟨_, front, kept, rfl, h⟩

/-! ## What a trim removes -/

def held (segments : List (String × List Char)) : List Char := (segments.map Prod.snd).flatten

theorem held_cons (first : String × List Char) (rest : List (String × List Char)) :
    held (first :: rest) = first.2 ++ held rest := List.flatten_cons

theorem textLen_append (a b : List Char) : textLen (a ++ b) = textLen a + textLen b := by
  simp only [textLen, utf8Chars_append, List.length_append]

theorem newlineCount_append (a b : List Char) :
    newlineCount (a ++ b) = newlineCount a + newlineCount b := by
  simp only [newlineCount, utf8Chars_append, List.count_append]

theorem proves_iff (w : Window) (text : List Char) :
    proves w (textLen text) (newlineCount text) = true ↔ Proves w.limits text := by
  rw [proves, Bool.or_eq_true, decide_eq_true_iff, decide_eq_true_iff, newlineCount, count_newline]
  rfl

/-- **Whole segments** are removed only in front of more than the window. -/
theorem wholeSegments_eq (w : Window) (segments : List (String × List Char))
    (removed : List Char) (h : segments ≠ []) :
    ∃ gone segments', wholeSegments w segments (textLen (held segments))
        (newlineCount (held segments)) removed =
          some (segments', textLen (held segments'), newlineCount (held segments'),
            removed ++ gone) ∧
      held segments = gone ++ held segments' ∧ (gone = [] ∨ Proves w.limits (held segments')) ∧
      segments' ≠ [] ∧ ∀ segment ∈ segments', segment ∈ segments := by
  induction segments generalizing removed with
  | nil => exact absurd rfl h
  | cons first rest ih =>
    cases rest with
    | nil =>
      exact ⟨[], [first], by rw [List.append_nil]; rfl, rfl, Or.inl rfl, h, fun _ hs => hs⟩
    | cons second rest =>
      have hsplit : held (first :: second :: rest) = first.2 ++ held (second :: rest) :=
        held_cons _ _
      rw [wholeSegments, hsplit, textLen_append, newlineCount_append]
      simp only [checkedSub_add, Option.bind_eq_bind, Option.bind_some]
      by_cases hproves : proves w (textLen (held (second :: rest)))
          (newlineCount (held (second :: rest))) = true
      · rw [if_pos hproves]
        obtain ⟨gone, segments', hrun, hheld, hproves', hne, hmem⟩ :=
          ih (removed ++ first.2) (List.cons_ne_nil _ _)
        refine ⟨first.2 ++ gone, segments', ?_, ?_, ?_, hne,
          fun s hs => List.mem_cons_of_mem _ (hmem s hs)⟩
        · rw [hrun, List.append_assoc]
        · rw [hheld, List.append_assoc]
        · right
          rcases hproves' with hgone | hproves'
          · rw [hgone, List.nil_append] at hheld
            rw [← hheld]
            exact (proves_iff w _).mp hproves
          · exact hproves'
      · rw [if_neg hproves, ← textLen_append, ← newlineCount_append, ← hsplit]
        exact ⟨[], _, by rw [List.append_nil], rfl, Or.inl rfl, h, fun _ hs => hs⟩

def Skipped.of (text : List Char) : Skipped :=
  ⟨textLen text, newlineCount text, Chord.Output.endsWithNewline text⟩

/-- **What a delivery owes**: of the text pushed since the last one, `omitted` is only counted, in
front of more than the window, and the segments hold the rest. -/
structure Keeps (w : Window) (pushed : List Char) (p : Pending) : Prop where
  window_eq : p.window = w
  bytes : p.bytes = textLen (held p.segments)
  newlines : p.newlines = newlineCount (held p.segments)
  nonempty : ∀ segment ∈ p.segments, segment.2 ≠ []
  omitted : ∃ omitted, pushed = omitted ++ held p.segments ∧
    (omitted = [] ∧ p.skipped = none ∨
      omitted ≠ [] ∧ p.skipped = some (Skipped.of omitted) ∧ Proves w.limits (held p.segments))

theorem Keeps.new (w : Window) : Keeps w [] (.new w) where
  window_eq := rfl
  bytes := rfl
  newlines := rfl
  nonempty := by
    intro segment hs
    cases hs
  omitted := ⟨[], rfl, Or.inl ⟨rfl, rfl⟩⟩

variable {p : Pending}

theorem Keeps.count {pushed removed text : List Char} (h : ∃ omitted, pushed = omitted ++ text ∧
      (omitted = [] ∧ p.skipped = none ∨
        omitted ≠ [] ∧ p.skipped = some (Skipped.of omitted) ∧ Proves w.limits text))
    (htext : text = removed ++ held p.segments)
    (hproves : removed = [] ∨ Proves w.limits (held p.segments)) :
    ∃ omitted, pushed = omitted ++ held (p.count removed).segments ∧
      (omitted = [] ∧ (p.count removed).skipped = none ∨
        omitted ≠ [] ∧ (p.count removed).skipped = some (Skipped.of omitted) ∧
          Proves w.limits (held (p.count removed).segments)) := by
  by_cases hremoved : removed = []
  · rw [hremoved, List.nil_append] at htext
    rw [htext] at h
    rw [Pending.count, if_pos hremoved]
    exact h
  · obtain ⟨omitted, hpushed, howed⟩ := h
    rw [Pending.count, if_neg hremoved]
    refine ⟨omitted ++ removed, ?_, Or.inr ⟨?_, ?_, hproves.resolve_left hremoved⟩⟩
    · rw [hpushed, htext, List.append_assoc]
    · exact fun hnil => hremoved (List.append_eq_nil_iff.mp hnil).2
    · have hends : endsWithNewline (omitted ++ removed) = endsWithNewline removed := by
        rw [endsWithNewline, endsWithNewline, List.getLast?_append_of_ne_nil _ hremoved]
      have hbefore : p.skipped.getD ⟨0, 0, false⟩ = ⟨textLen omitted, newlineCount omitted,
          (p.skipped.getD ⟨0, 0, false⟩).endsWithNewline⟩ := by
        rcases howed with ⟨hnone, hskipped⟩ | ⟨-, hskipped, -⟩
        · rw [hskipped, hnone]
          rfl
        · rw [hskipped]
          rfl
      simp only
      rw [hbefore, Skipped.of, textLen_append, newlineCount_append, hends]

@[simp] theorem count_window (p : Pending) (removed : List Char) :
    (p.count removed).window = p.window := by
  rw [Pending.count]
  split <;> rfl

@[simp] theorem count_segments (p : Pending) (removed : List Char) :
    (p.count removed).segments = p.segments := by
  rw [Pending.count]
  split <;> rfl

@[simp] theorem count_bytes (p : Pending) (removed : List Char) :
    (p.count removed).bytes = p.bytes := by
  rw [Pending.count]
  split <;> rfl

@[simp] theorem count_newlines (p : Pending) (removed : List Char) :
    (p.count removed).newlines = p.newlines := by
  rw [Pending.count]
  split <;> rfl

/-- **A trim** goes through, no index out of range and no cut inside a character, and leaves what
is owed. -/
theorem Keeps.trim {pushed : List Char} (h : Keeps w pushed p) (hne : p.segments ≠ [])
    : ∃ p', p.trim = some p' ∧ Keeps w pushed p' := by
  obtain ⟨gone, segments, hrun, hheld, hproves, hne', hmem⟩ :=
    wholeSegments_eq p.window p.segments [] hne
  rw [Pending.trim, h.bytes, h.newlines, hrun]
  simp only [Option.bind_eq_bind, Option.bind_some, List.nil_append]
  cases segments with
  | nil => exact absurd rfl hne'
  | cons segment rest =>
    obtain ⟨stream, first⟩ := segment
    have hfirst : first ≠ [] := h.nonempty _ (hmem _ List.mem_cons_self)
    have hrest : ∀ segment ∈ rest, segment.2 ≠ [] := fun segment hs =>
      h.nonempty _ (hmem _ (List.mem_cons_of_mem _ hs))
    have hsplit : held ((stream, first) :: rest) = first ++ held rest := held_cons _ _
    obtain ⟨cut, front, kept, hcut, hparts, hlen, hdrain, hbehind⟩ :=
      cutOf_eq p.window first (held rest)
    simp only
    rw [hsplit, textLen_append, newlineCount_append]
    simp only [checkedSub_add, Option.bind_some, hcut]
    rw [Pending.drain]
    by_cases hpos : cut > 0
    · -- the first segment is cut as well
      rw [if_pos hpos, hdrain]
      have hbytes : textLen first + textLen (held rest) =
          textLen front + textLen (kept ++ held rest) := by
        rw [hparts, textLen_append, textLen_append]
        omega
      have hnewlines : newlineCount first + newlineCount (held rest) =
          newlineCount front + newlineCount (kept ++ held rest) := by
        rw [hparts, newlineCount_append, newlineCount_append]
        omega
      have hleft : held (if kept = [] then rest else (stream, kept) :: rest) =
          kept ++ held rest := by
        split
        · rename_i hnil
          rw [hnil]
          rfl
        · exact held_cons _ _
      simp only [Option.bind_eq_bind, Option.bind_some, hbytes, hnewlines, checkedSub_add]
      refine ⟨_, rfl, ?_, ?_, ?_, ?_, ?_⟩
      · rw [count_window]
        exact h.window_eq
      · rw [count_bytes, count_segments, hleft]
      · rw [count_newlines, count_segments, hleft]
      · rw [count_segments]
        intro segment hs
        simp only at hs
        split at hs
        · exact hrest _ hs
        · rename_i hkept
          rcases List.mem_cons.mp hs with rfl | hs
          · exact hkept
          · exact hrest _ hs
      · refine Keeps.count (p := { p with
            segments := if kept = [] then rest else (stream, kept) :: rest
            bytes := textLen (kept ++ held rest)
            newlines := newlineCount (kept ++ held rest) }) h.omitted ?_ ?_
        · rw [hleft, hheld, hsplit, hparts]
          simp only [List.append_assoc]
        · right
          rw [hleft, ← h.window_eq]
          exact hbehind hpos
    · rw [if_neg hpos]
      refine ⟨_, rfl, ?_, ?_, ?_, ?_, ?_⟩
      · rw [count_window]
        exact h.window_eq
      · rw [count_bytes, count_segments, hsplit, textLen_append]
      · rw [count_newlines, count_segments, hsplit, newlineCount_append]
      · rw [count_segments]
        intro segment hs
        rcases List.mem_cons.mp hs with rfl | hs
        · exact hfirst
        · exact hrest _ hs
      · refine Keeps.count (p := { p with
            segments := (stream, first) :: rest
            bytes := textLen first + textLen (held rest)
            newlines := newlineCount first + newlineCount (held rest) }) h.omitted hheld ?_
        rw [← h.window_eq]
        exact hproves

/-! ## Pushing -/

theorem held_pushSegment (stream : String) (text : List Char)
    (segments : List (String × List Char)) :
    held (pushSegment stream text segments) = held segments ++ text := by
  fun_induction pushSegment stream text segments with
  | case1 => simp [held]
  | case2 existing => simp [held]
  | case3 last existing hother => simp [held]
  | case4 first second rest ih =>
    rw [held_cons, ih, held_cons first, List.append_assoc]

theorem pushSegment_nonempty (stream : String) {text : List Char} (htext : text ≠ [])
    {segments : List (String × List Char)} (h : ∀ segment ∈ segments, segment.2 ≠ []) :
    (∀ segment ∈ pushSegment stream text segments, segment.2 ≠ []) ∧
      pushSegment stream text segments ≠ [] := by
  fun_induction pushSegment stream text segments with
  | case1 => simpa using htext
  | case2 existing => simp [htext]
  | case3 last existing hother => simpa [htext] using h
  | case4 first second rest ih =>
    have hrest := ih fun segment hs => h segment (List.mem_cons_of_mem _ hs)
    refine ⟨?_, List.cons_ne_nil _ _⟩
    intro segment hs
    rcases List.mem_cons.mp hs with rfl | hs
    · exact h _ List.mem_cons_self
    · exact hrest.1 segment hs

/-- **A push** goes through, and the pushed text is owed behind the rest. -/
theorem Keeps.push {pushed : List Char} (h : Keeps w pushed p) (stream : String) (text : List Char) :
    ∃ p', p.push stream text = some p' ∧ Keeps w (pushed ++ text) p' := by
  by_cases htext : text = []
  · rw [Pending.push, if_pos htext, htext, List.append_nil]
    exact ⟨p, rfl, h⟩
  · have hheld := held_pushSegment stream text p.segments
    have hsegments := pushSegment_nonempty stream htext h.nonempty
    have hkeeps : Keeps w (pushed ++ text) { p with
        bytes := p.bytes + textLen text
        newlines := p.newlines + newlineCount text
        segments := pushSegment stream text p.segments } := by
      obtain ⟨omitted, hpushed, howed⟩ := h.omitted
      refine ⟨h.window_eq, ?_, ?_, hsegments.1, omitted, ?_, ?_⟩
      · rw [hheld, textLen_append, h.bytes]
      · rw [hheld, newlineCount_append, h.newlines]
      · rw [hheld, hpushed, List.append_assoc]
      · refine howed.imp_right fun howed => ⟨howed.1, howed.2.1, ?_⟩
        rw [hheld]
        exact howed.2.2.append_right text
    rw [Pending.push, if_neg htext]
    simp only
    split
    · exact hkeeps.trim hsegments.2
    · exact ⟨_, rfl, hkeeps⟩

end ThreeXhaust.Env
