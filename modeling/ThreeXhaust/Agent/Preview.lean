import ThreeXhaust.Agent.Diff
import ThreeXhaust.Lib.Except

/-!
# The preview of a mutation

`mutationPreview` of `agent-approved-file-preview.ts`: the text a user approves before a file is
overwritten. The changes are listed in hunks, each with a header that tells where it stands in
both files and how many lines it removes and adds.

`applyPreview` reads such a text back and applies it, checking every position, count and removed
line. It knows nothing of how the text was made.

* **`applyHunks_hunks`** — applied to the old lines they give the new ones.
-/

namespace ThreeXhaust.Agent

open Utf16 EditScript

/-! ## The source -/

def bodyLine (change : Change) : Line :=
  (if change.kind = .remove then 45 else 43) :: change.line

def header (startOld removed startNew added : Nat) : Line :=
  units "@@ -" ++ naturalText startOld ++ units "," ++ naturalText removed ++ units " +" ++
    naturalText startNew ++ units "," ++ naturalText added ++ units " @@"

structure Gathered where
  body : List Line
  removed : Nat
  added : Nat
  oldLine : Nat
  newLine : Nat

/-- The inner loop: the changes up to the next equal line, and those behind them. -/
def gather : List Change → Gathered → Gathered × List Change
  | [], gathered => (gathered, [])
  | change :: rest, gathered =>
    match change.kind with
    | .equal => (gathered, change :: rest)
    | .remove =>
      gather rest { gathered with
        body := gathered.body ++ [bodyLine change]
        removed := gathered.removed + 1
        oldLine := gathered.oldLine + 1 }
    | .add =>
      gather rest { gathered with
        body := gathered.body ++ [bodyLine change]
        added := gathered.added + 1
        newLine := gathered.newLine + 1 }

theorem gather_length (changes : List Change) (gathered : Gathered) :
    (gather changes gathered).2.length ≤ changes.length := by
  induction changes generalizing gathered with
  | nil => exact Nat.le_refl _
  | cons change rest ih =>
    rw [gather]
    split
    · exact Nat.le_refl _
    · exact Nat.le_succ_of_le (ih _)
    · exact Nat.le_succ_of_le (ih _)

theorem gather_length_lt {change : Change} (h : change.kind ≠ .equal) (rest : List Change)
    (gathered : Gathered) :
    (gather (change :: rest) gathered).2.length < (change :: rest).length := by
  rw [gather]
  split
  · next hequal => exact absurd hequal h
  · exact Nat.lt_succ_of_le (gather_length rest _)
  · exact Nat.lt_succ_of_le (gather_length rest _)

def outputFrom (changes : List Change) (oldLine newLine : Nat) : List Line :=
  match changes with
  | [] => []
  | change :: rest =>
    if hkind : change.kind = .equal then outputFrom rest (oldLine + 1) (newLine + 1)
    else
      let found := gather (change :: rest) ⟨[], 0, 0, oldLine, newLine⟩
      header oldLine found.1.removed newLine found.1.added :: found.1.body ++
        outputFrom found.2 found.1.oldLine found.1.newLine
termination_by changes.length
decreasing_by
  · exact Nat.lt_succ_self rest.length
  · exact gather_length_lt hkind rest _

/-- `lines.join("\n")`. -/
def joinLines (lines : List Line) : Text := [newline].intercalate lines

def mutationPreview (before after : Text) (maximumCharacters : Nat) : Except String Text := do
  let changes ← lineChanges before after
  let preview := joinLines (outputFrom changes 1 1)
  if preview.length > maximumCharacters
      ∨ (preview.splitOn newline).length > MAX_PREVIEW_LINES then
    .error "Mutation preview exceeds the review bound"
  else .ok preview

/-! ## Reading and applying a preview -/

structure Hunk where
  startOld : Nat
  startNew : Nat
  body : List Change

def readLiteral (literal : Text) (s : Text) : Option Text :=
  if literal <+: s then some (s.drop literal.length) else none

/-- The four numbers of a header `@@ -a,b +c,d @@`. -/
def readHeader (line : Line) : Option (Nat × Nat × Nat × Nat) := do
  let rest ← readLiteral (units "@@ -") line
  let (startOld, rest) ← readNatural rest
  let rest ← readLiteral (units ",") rest
  let (removed, rest) ← readNatural rest
  let rest ← readLiteral (units " +") rest
  let (startNew, rest) ← readNatural rest
  let rest ← readLiteral (units ",") rest
  let (added, rest) ← readNatural rest
  if rest = units " @@" then some (startOld, removed, startNew, added) else none

def readBody (removed added : Nat) : List Line → Option (List Change × List Line)
  | [] => if removed = 0 ∧ added = 0 then some ([], []) else none
  | line :: rest =>
    if removed = 0 ∧ added = 0 then some ([], line :: rest)
    else
      match line with
      | 45 :: text =>
        if 0 < removed then
          (readBody (removed - 1) added rest).map fun (body, rest) => (⟨.remove, text⟩ :: body, rest)
        else none
      | 43 :: text =>
        if 0 < added then
          (readBody removed (added - 1) rest).map fun (body, rest) => (⟨.add, text⟩ :: body, rest)
        else none
      | _ => none

/-- Hunk after hunk; a hunk takes a line at least. -/
def readHunks : Nat → List Line → Option (List Hunk)
  | _, [] => some []
  | 0, _ :: _ => none
  | fuel + 1, line :: rest => do
    let (startOld, removed, startNew, added) ← readHeader line
    let (body, rest) ← readBody removed added rest
    let hunks ← readHunks fuel rest
    some (⟨startOld, startNew, body⟩ :: hunks)

def readPreview (preview : Text) : Option (List Hunk) :=
  if preview = [] then some []
  else readHunks (preview.splitOn newline).length (preview.splitOn newline)

/-- The hunks on the lines that are left: a hunk stands where it says in both files, and removes
the lines it says. -/
def applyHunks : List Hunk → Nat → Nat → List Line → Option (List Line)
  | [], _, _, lines => some lines
  | hunk :: hunks, oldLine, newLine, lines =>
    let gap := hunk.startOld - oldLine
    let removed := oldLines hunk.body
    let added := newLines hunk.body
    if oldLine ≤ hunk.startOld ∧ hunk.startNew = newLine + gap ∧ gap ≤ lines.length
        ∧ removed <+: lines.drop gap then
      (applyHunks hunks (hunk.startOld + removed.length) (hunk.startNew + added.length)
        (lines.drop (gap + removed.length))).map fun rest => lines.take gap ++ added ++ rest
    else none

def contentOf (lines : List Line) : Text := joinLines lines

def applyPreview (before preview : Text) : Option Text := do
  let hunks ← readPreview preview
  let lines ← applyHunks hunks 1 1 (linesOf before)
  some (contentOf lines)

/-! ## Lines -/

theorem not_mem_splitOn {mark : UInt16} {s line : Text} (h : line ∈ s.splitOn mark) :
    mark ∉ line := by
  induction s generalizing line with
  | nil =>
    obtain rfl : line = [] := by simpa using h
    exact List.not_mem_nil
  | cons u s ih =>
    rw [List.splitOn_cons_eq_if_modifyHead] at h
    split at h
    · obtain rfl | h := List.mem_cons.mp h
      · exact List.not_mem_nil
      · exact ih h
    · next hu =>
      cases hlines : s.splitOn mark with
      | nil => exact absurd hlines (List.splitOn_ne_nil mark s)
      | cons first others =>
        rw [hlines, List.modifyHead_cons] at h
        obtain rfl | h := List.mem_cons.mp h
        · rw [List.mem_cons, not_or]
          exact ⟨fun hmark => hu (by simp [hmark]), ih (hlines ▸ List.mem_cons_self)⟩
        · exact ih (hlines ▸ List.mem_cons_of_mem first h)

theorem newline_not_mem_linesOf {content : Text} {line : Line} (h : line ∈ linesOf content) :
    newline ∉ line := by
  rw [linesOf] at h
  split at h
  · exact absurd h List.not_mem_nil
  · exact not_mem_splitOn h

theorem contentOf_linesOf (content : Text) : contentOf (linesOf content) = content := by
  rw [linesOf]
  split
  · next hempty =>
    rw [hempty]
    rfl
  · exact List.intercalate_splitOn newline

/-! ## A hunk and its lines -/

def Edits (changes : List Change) : Prop := ∀ change ∈ changes, change.kind ≠ .equal

def Hunk.lines (hunk : Hunk) : List Line :=
  header hunk.startOld (oldLines hunk.body).length hunk.startNew (newLines hunk.body).length ::
    hunk.body.map bodyLine

/-- **What the inner loop gathers**: the edits before the next equal line, counted. -/
theorem gather_spec (changes : List Change) (gathered : Gathered) :
    ∃ run rest, changes = run ++ rest ∧ Edits run
      ∧ (gather changes gathered).1.body = gathered.body ++ run.map bodyLine
      ∧ (gather changes gathered).1.removed = gathered.removed + (oldLines run).length
      ∧ (gather changes gathered).1.added = gathered.added + (newLines run).length
      ∧ (gather changes gathered).1.oldLine = gathered.oldLine + (oldLines run).length
      ∧ (gather changes gathered).1.newLine = gathered.newLine + (newLines run).length
      ∧ (gather changes gathered).2 = rest := by
  induction changes generalizing gathered with
  | nil => exact ⟨[], [], rfl, fun _ h => absurd h List.not_mem_nil, by simp [gather]⟩
  | cons change rest ih =>
    obtain ⟨kind, line⟩ := change
    cases kind with
    | equal =>
      exact ⟨[], _, rfl, fun _ h => absurd h List.not_mem_nil, by simp [gather]⟩
    | remove =>
      obtain ⟨run, others, rfl, hedits, hbody, hremoved, hadded, hold, hnew, hrest⟩ := ih
        { gathered with
          body := gathered.body ++ [bodyLine ⟨.remove, line⟩]
          removed := gathered.removed + 1
          oldLine := gathered.oldLine + 1 }
      refine ⟨⟨.remove, line⟩ :: run, others, rfl, ?_, ?_, ?_, ?_, ?_, ?_, ?_⟩
      · exact List.forall_mem_cons.mpr ⟨Kind.noConfusion, hedits⟩
      · simpa [gather] using hbody
      · simp only [gather, hremoved, oldLines_remove, List.length_cons]
        omega
      · simp only [gather, hadded, newLines_remove]
      · simp only [gather, hold, oldLines_remove, List.length_cons]
        omega
      · simp only [gather, hnew, newLines_remove]
      · simpa only [gather] using hrest
    | add =>
      obtain ⟨run, others, rfl, hedits, hbody, hremoved, hadded, hold, hnew, hrest⟩ := ih
        { gathered with
          body := gathered.body ++ [bodyLine ⟨.add, line⟩]
          added := gathered.added + 1
          newLine := gathered.newLine + 1 }
      refine ⟨⟨.add, line⟩ :: run, others, rfl, ?_, ?_, ?_, ?_, ?_, ?_, ?_⟩
      · exact List.forall_mem_cons.mpr ⟨Kind.noConfusion, hedits⟩
      · simpa [gather] using hbody
      · simp only [gather, hremoved, oldLines_add]
      · simp only [gather, hadded, newLines_add, List.length_cons]
        omega
      · simp only [gather, hold, oldLines_add]
      · simp only [gather, hnew, newLines_add, List.length_cons]
        omega
      · simpa only [gather] using hrest

/-- **The output** is hunks, and they make the new lines of the old ones. `kept` are the equal
lines since the last hunk. -/
theorem outputFrom_spec (changes : List Change) (oldLine newLine : Nat) :
    ∃ hunks : List Hunk, outputFrom changes oldLine newLine = hunks.flatMap Hunk.lines
      ∧ (∀ hunk ∈ hunks, Edits hunk.body ∧ ∀ change ∈ hunk.body, change ∈ changes)
      ∧ ∀ (kept : List Line) (oldStart newStart : Nat), oldLine = oldStart + kept.length →
        newLine = newStart + kept.length →
        applyHunks hunks oldStart newStart (kept ++ oldLines changes)
          = some (kept ++ newLines changes) := by
  induction changes, oldLine, newLine using outputFrom.induct with
  | case1 oldLine newLine =>
    refine ⟨[], by simp [outputFrom], fun _ h => absurd h List.not_mem_nil, ?_⟩
    intro kept _ _ _ _
    rfl
  | case2 oldLine newLine change rest hequal ih =>
    obtain ⟨kind, line⟩ := change
    obtain rfl : kind = .equal := hequal
    obtain ⟨hunks, houtput, hbodies, happly⟩ := ih
    refine ⟨hunks, ?_, ?_, ?_⟩
    · rw [outputFrom, dif_pos rfl, houtput]
    · intro hunk hhunk
      obtain ⟨hedits, hmem⟩ := hbodies hunk hhunk
      exact ⟨hedits, fun change hchange => List.mem_cons_of_mem _ (hmem change hchange)⟩
    · intro kept oldStart newStart hold hnew
      have hrest := happly (kept ++ [line]) oldStart newStart (by simp; omega) (by simp; omega)
      simpa using hrest
  | case3 oldLine newLine change rest hkind found ih =>
    obtain ⟨run, others, hchanges, hedits, hbody, hremoved, hadded, hold, hnew, hrest⟩ :=
      gather_spec (change :: rest) ⟨[], 0, 0, oldLine, newLine⟩
    obtain ⟨hunks, houtput, hbodies, happly⟩ := ih
    simp only [Nat.zero_add, List.nil_append] at hbody hremoved hadded hold hnew
    rw [show found.2 = others from hrest] at houtput hbodies happly
    rw [show found.1.oldLine = _ from hold, show found.1.newLine = _ from hnew] at houtput happly
    refine ⟨⟨oldLine, newLine, run⟩ :: hunks, ?_, ?_, ?_⟩
    · rw [outputFrom, dif_neg hkind]
      simp only [hrest, hold, hnew, hremoved, hadded, hbody, houtput]
      rfl
    · rw [hchanges]
      intro hunk hhunk
      obtain rfl | hhunk := List.mem_cons.mp hhunk
      · exact ⟨hedits, fun change hchange => List.mem_append_left _ hchange⟩
      · obtain ⟨hplain, hmem⟩ := hbodies hunk hhunk
        exact ⟨hplain, fun change hchange => List.mem_append_right _ (hmem change hchange)⟩
    · intro kept oldStart newStart holdLine hnewLine
      have hgap : oldLine - oldStart = kept.length := by omega
      have hleft : (kept ++ oldLines (change :: rest)).drop kept.length
          = oldLines run ++ oldLines others := by
        rw [List.drop_left, hchanges, oldLines_append]
      have happlied := happly [] (oldLine + (oldLines run).length)
        (newLine + (newLines run).length) rfl rfl
      rw [applyHunks]
      simp only [hgap, hleft]
      rw [if_pos ⟨by omega, by omega, by simp, List.prefix_append _ _⟩, ← List.drop_drop, hleft,
        List.drop_left]
      rw [List.nil_append] at happlied
      rw [happlied, hchanges]
      simp

/-! ## What is read from the lines -/

theorem readLiteral_append (literal rest : Text) :
    readLiteral literal (literal ++ rest) = some rest := by
  rw [readLiteral, if_pos (List.prefix_append literal rest), List.drop_left]

theorem readHeader_header (startOld removed startNew added : Nat) :
    readHeader (header startOld removed startNew added)
      = some (startOld, removed, startNew, added) := by
  have hcomma (rest : Text) : ∀ u ∈ (units "," ++ rest).head?, isDigitUnit u = false := by
    intro u hu
    obtain rfl : 44 = u := Option.some.inj hu
    decide
  have hspace (rest : Text) : ∀ u ∈ (units " +" ++ rest).head?, isDigitUnit u = false := by
    intro u hu
    obtain rfl : 32 = u := Option.some.inj hu
    decide
  have hend : ∀ u ∈ (units " @@").head?, isDigitUnit u = false := by
    intro u hu
    obtain rfl : 32 = u := Option.some.inj hu
    decide
  simp only [readHeader, header, List.append_assoc, readLiteral_append,
    readNatural_append (hcomma _), readNatural_append (hspace _), readNatural_append hend,
    Option.bind_eq_bind, Option.bind_some, if_true]

theorem readBody_map {body : List Change} (h : Edits body) (rest : List Line) :
    readBody (oldLines body).length (newLines body).length (body.map bodyLine ++ rest)
      = some (body, rest) := by
  induction body with
  | nil =>
    cases rest with
    | nil => rfl
    | cons line rest => rfl
  | cons change body ih =>
    obtain ⟨hchange, hbody⟩ := List.forall_mem_cons.mp h
    obtain ⟨kind, line⟩ := change
    cases kind with
    | equal => exact absurd rfl hchange
    | remove =>
      simp [readBody, bodyLine, ih hbody]
    | add =>
      simp [readBody, bodyLine, ih hbody]

/-- **The hunks are read** from their lines. -/
theorem readHunks_lines {hunks : List Hunk} (h : ∀ hunk ∈ hunks, Edits hunk.body) {fuel : Nat}
    (hfuel : hunks.length ≤ fuel) : readHunks fuel (hunks.flatMap Hunk.lines) = some hunks := by
  induction hunks generalizing fuel with
  | nil => cases fuel <;> rfl
  | cons hunk hunks ih =>
    obtain ⟨hhunk, hothers⟩ := List.forall_mem_cons.mp h
    obtain ⟨fuel, rfl⟩ : ∃ n, fuel = n + 1 := ⟨fuel - 1, by
      rw [List.length_cons] at hfuel
      omega⟩
    have hrest := ih hothers (Nat.le_of_succ_le_succ hfuel)
    rw [List.flatMap_cons, Hunk.lines, List.cons_append, readHunks, readHeader_header]
    simp only [Option.bind_eq_bind, Option.bind_some, readBody_map hhunk, hrest]

theorem length_le_flatMap_lines (hunks : List Hunk) :
    hunks.length ≤ (hunks.flatMap Hunk.lines).length := by
  induction hunks with
  | nil => exact Nat.le_refl _
  | cons hunk hunks ih =>
    rw [List.flatMap_cons, List.length_append, List.length_cons, Hunk.lines, List.length_cons]
    omega

/-! ## The preview -/

theorem Script.line_mem {old new : List Line} {changes : List Change} (h : Script old new changes)
    {change : Change} (hchange : change ∈ changes) : change.line ∈ old ∨ change.line ∈ new := by
  rw [← h.old, ← h.new]
  by_cases hadd : change.kind = .add
  · refine .inr (List.mem_map_of_mem (List.mem_filter.mpr ⟨hchange, ?_⟩))
    rw [hadd]
    decide
  · exact .inl (List.mem_map_of_mem (List.mem_filter.mpr ⟨hchange, by simpa using hadd⟩))

theorem newline_not_mem_naturalText (n : Nat) : newline ∉ naturalText n := by
  intro h
  exact absurd (isDigitUnit_naturalText n newline h) (by decide)

theorem newline_not_mem_header (startOld removed startNew added : Nat) :
    newline ∉ header startOld removed startNew added := by
  have hliterals : ∀ s ∈ ["@@ -", ",", " +", " @@"], newline ∉ units s := by decide
  simp only [header, List.mem_append, newline_not_mem_naturalText, or_false, not_or]
  simp only [List.forall_mem_cons] at hliterals
  obtain ⟨hstart, hcomma, hplus, hend, -⟩ := hliterals
  exact ⟨⟨⟨⟨hstart, hcomma⟩, hplus⟩, hcomma⟩, hend⟩

theorem newline_not_mem_lines {hunk : Hunk} (h : ∀ change ∈ hunk.body, newline ∉ change.line)
    {line : Line} (hline : line ∈ hunk.lines) : newline ∉ line := by
  obtain rfl | hline := List.mem_cons.mp hline
  · exact newline_not_mem_header _ _ _ _
  · obtain ⟨change, hchange, rfl⟩ := List.mem_map.mp hline
    rw [bodyLine, List.mem_cons, not_or]
    constructor
    · split <;> decide
    · exact h change hchange

/-- **The hunks of a preview** are those its lines were made of. -/
theorem readPreview_joinLines {hunks : List Hunk}
    (h : ∀ hunk ∈ hunks, Edits hunk.body ∧ ∀ change ∈ hunk.body, newline ∉ change.line) :
    readPreview (joinLines (hunks.flatMap Hunk.lines)) = some hunks := by
  cases hunks with
  | nil => rfl
  | cons hunk others =>
    have hne : (hunk :: others).flatMap Hunk.lines ≠ [] := by
      rw [List.flatMap_cons, Hunk.lines, List.cons_append]
      exact List.cons_ne_nil _ _
    have hclean : ∀ line ∈ (hunk :: others).flatMap Hunk.lines, newline ∉ line := by
      intro line hline
      obtain ⟨found, hfound, hline⟩ := List.mem_flatMap.mp hline
      exact newline_not_mem_lines (h found hfound).2 hline
    have hsplit := List.splitOn_intercalate newline hclean hne
    have hfirst : joinLines ((hunk :: others).flatMap Hunk.lines) ≠ [] := by
      intro hempty
      -- the lines of no text are one empty line, and a header is not empty
      rw [joinLines] at hempty
      rw [hempty, List.splitOn_nil, List.flatMap_cons, Hunk.lines, List.cons_append] at hsplit
      have hheader := (List.cons.inj hsplit).1
      exact absurd (congrArg List.head? hheader) (by simp [header, units])
    rw [readPreview, if_neg hfirst, joinLines, hsplit]
    exact readHunks_lines (fun found hfound => (h found hfound).1) (length_le_flatMap_lines _)

/-- **The preview** of a mutation makes the new content of the old one. -/
theorem applyPreview_mutationPreview {before after preview : Text} {maximumCharacters : Nat}
    (h : mutationPreview before after maximumCharacters = .ok preview) :
    applyPreview before preview = some after := by
  obtain ⟨changes, hchanges, h⟩ := Except.bind_eq_ok.mp h
  obtain ⟨-, h⟩ := Except.ite_error_eq_ok.mp h
  cases h
  obtain ⟨hscript, -, -⟩ := lineChanges_script hchanges
  obtain ⟨hunks, houtput, hbodies, happly⟩ := outputFrom_spec changes 1 1
  have hclean : ∀ hunk ∈ hunks, Edits hunk.body ∧ ∀ change ∈ hunk.body, newline ∉ change.line := by
    intro hunk hhunk
    obtain ⟨hedits, hmem⟩ := hbodies hunk hhunk
    refine ⟨hedits, fun change hchange => ?_⟩
    obtain hline | hline := Script.line_mem hscript (hmem change hchange)
    · exact newline_not_mem_linesOf hline
    · exact newline_not_mem_linesOf hline
  have hlines := happly [] 1 1 rfl rfl
  rw [List.nil_append, List.nil_append, hscript.old, hscript.new] at hlines
  rw [houtput, applyPreview, readPreview_joinLines hclean]
  simp only [Option.bind_eq_bind, Option.bind_some, hlines, contentOf_linesOf]

/-- **What is approved is what is written**: a preview, applied where it says, makes exactly the
new content, its changes are a shortest script, and it is refused as too long only where every
script has more changes than the bound. -/
theorem mutationPreview_exact (before after : Text) (maximumCharacters : Nat) :
    (∀ preview, mutationPreview before after maximumCharacters = .ok preview →
      applyPreview before preview = some after)
    ∧ (∀ changes, lineChanges before after = .ok changes →
      Script (linesOf before) (linesOf after) changes
        ∧ ∀ others, Script (linesOf before) (linesOf after) others → cost changes ≤ cost others)
    ∧ ((∃ message, lineChanges before after = .error message) ↔
      ∀ others, Script (linesOf before) (linesOf after) others →
        MAX_PREVIEW_LINES < cost others) := by
  refine ⟨fun preview => applyPreview_mutationPreview, fun changes h => ?_, ?_⟩
  · obtain ⟨hscript, -, hshortest⟩ := lineChanges_script h
    exact ⟨hscript, hshortest⟩
  · constructor
    · rintro ⟨message, h⟩ others hothers
      exact lineChanges_error h hothers
    · intro hlong
      cases h : lineChanges before after with
      | error message => exact ⟨message, rfl⟩
      | ok changes =>
        obtain ⟨hscript, hcost, -⟩ := lineChanges_script h
        exact absurd (hlong changes hscript) (Nat.not_lt.mpr hcost)

/-- One line of two is replaced. -/
theorem mutationPreview_line :
    applyPreview (units "a\nb") (units "@@ -2,1 +2,1 @@\n-b\n+c") = some (units "a\nc")
      ∧ Script (linesOf (units "a\nb")) (linesOf (units "a\nc"))
        [⟨.equal, units "a"⟩, ⟨.remove, units "b"⟩, ⟨.add, units "c"⟩] := by
  obtain ⟨happly, hshortest, -⟩ := mutationPreview_exact (units "a\nb") (units "a\nc") 100
  exact ⟨happly _ (by decide +kernel), (hshortest _ (by decide +kernel)).1⟩

end ThreeXhaust.Agent
