import ThreeXhaust.Lib.CodePoints
import ThreeXhaust.Patch.Edits

/-!
# Resuming a patch that was applied

`runPatchFlow` of `coding-runtime-patch-flow.ts` from the approval of a proposal on. A run that is
resumed behind the checkpoint `patch-applied` writes no file, but it prepares the edits again, on the
contents they were applied to.
-/

namespace ThreeXhaust.Patch.Edits.Resume

open Utf16 Occurrences

/-! ## The source -/

inductive Phase where
  | patchApproved
  | patchApplied
deriving DecidableEq

inductive PatchStatus where
  | proposed
  | approved
  | conflict
  | applied

structure Diagnostics where
  success : Bool
  command : String

structure Input where
  edits : List TextEdit
  documents : List ProjectDocument
  snapshotRevision : String

structure Env where
  /-- What `verifyPatchPath` finds wrong on the way to a path. -/
  boundary : String → Except String Unit
  /-- The revision of `createProjectSnapshot`. -/
  revision : Files → String
  /-- What the file transaction refuses the files with. -/
  refusal : Files → List PreparedPatchFile → Option String
  runDiagnostics : Files → Diagnostics

inductive FlowError where
  | revisionChanged
  | preparation (message : String)
  | application (message : String)
  | diagnostics (command : String)

/-- What a run leaves behind: the files, and what is stored of the patch, the checkpoint and the
run. -/
structure Stored where
  files : Files
  patch : PatchStatus
  checkpoint : Option Phase
  completed : Bool

def applyPreparedFiles (files : Files) (prepared : List PreparedPatchFile) : Files :=
  prepared.foldl (fun files file path =>
    if path = file.document.relativePath then some ⟨String.ofList (chars file.after), 1⟩ else files path) files

def applyPatch (env : Env) (input : Input) (recovered : Option Phase) (s : Stored) :
    Stored × Except FlowError Unit :=
  if recovered = none ∧ env.revision s.files ≠ input.snapshotRevision then
    ({ s with patch := .conflict }, .error .revisionChanged)
  else
    let s := match recovered with
      | none => { s with patch := .approved, checkpoint := some .patchApproved }
      | some .patchApproved => { s with patch := .approved }
      | some .patchApplied => { s with patch := .applied }
    match preparePatchedFiles env.boundary s.files input.edits input.documents with
    | .error message => (s, .error (.preparation message))
    | .ok prepared =>
      let filesToApply := prepared.filter fun file => file.before ≠ file.after
      if recovered ≠ none ∧ filesToApply.length = prepared.length
          ∧ env.revision s.files ≠ input.snapshotRevision then
        ({ s with patch := .conflict }, .error .revisionChanged)
      else if recovered = some .patchApplied then (s, .ok ())
      else
        match env.refusal s.files filesToApply with
        | some message => (s, .error (.application message))
        | none =>
          ({ s with
            files := applyPreparedFiles s.files filesToApply
            patch := .applied
            checkpoint := some .patchApplied }, .ok ())

def diagnose (env : Env) (s : Stored) : Stored × Except FlowError Diagnostics :=
  let diagnostics := env.runDiagnostics s.files
  if diagnostics.success then ({ s with completed := true }, .ok diagnostics)
  else (s, .error (.diagnostics diagnostics.command))

def runPatchFlow (env : Env) (input : Input) (recovered : Option Phase) (s : Stored) :
    Stored × Except FlowError Diagnostics :=
  match applyPatch env input recovered s with
  | (s, .error e) => (s, .error e)
  | (s, .ok ()) => diagnose env s

/-! ## Which edits can be prepared -/

section Boundary

variable {boundary : String → Except String Unit} {files : Files}
  {documents : List ProjectDocument} {pending pending' : List PreparedPatchFile} {edit : TextEdit}
  {edits earlier : List TextEdit}

def Reads (boundary : String → Except String Unit) (files : Files) (documents : List ProjectDocument)
    (id : String) (document : ProjectDocument) (disk : Text) (existed : Bool) : Prop :=
  documentOf documents id = some document
    ∧ currentContent boundary files document = .ok (disk, existed)

theorem prepareEdit_cases
    (h : prepareEdit boundary files documents pending edit = .ok pending') :
    ∃ file, file.document.id = edit.documentId ∧ pending' = setPending pending file
      ∧ (pendingOf pending edit.documentId = none →
        ∃ document disk existed, Reads boundary files documents edit.documentId document disk existed)
    := by
  unfold prepareEdit at h
  split at h
  · cases h
  next document hdoc =>
  split at h
  · rename_i previous hprevious
    obtain ⟨there, -, h⟩ := Except.bind_eq_ok.mp h
    obtain ⟨after, -, h⟩ := Except.bind_eq_ok.mp h
    refine ⟨_, id_of_documentOf hdoc, (Except.ok.inj h).symm, fun hnone => ?_⟩
    rw [hprevious] at hnone
    cases hnone
  · obtain ⟨⟨disk, existed⟩, hcurrent, h⟩ := Except.bind_eq_ok.mp h
    obtain ⟨after, -, h⟩ := Except.bind_eq_ok.mp h
    exact ⟨_, id_of_documentOf hdoc, (Except.ok.inj h).symm, fun _ =>
      ⟨document, disk, existed, hdoc, hcurrent⟩⟩

theorem mem_setPending {file p : PreparedPatchFile} (h : p ∈ setPending pending file) :
    p = file ∨ p ∈ pending ∧ p.document.id ≠ file.document.id := by
  rw [setPending] at h
  split at h
  · obtain ⟨q, hq, hp⟩ := List.mem_map.mp h
    split at hp
    · exact .inl hp.symm
    · rename_i hne
      rw [← hp]
      exact .inr ⟨hq, hne⟩
  · rename_i hnone
    rcases List.mem_append.mp h with hp | hp
    · refine .inr ⟨hp, fun heq => hnone (List.any_eq_true.mpr ⟨p, hp, ?_⟩)⟩
      rw [heq, decide_eq_true_iff]
    · exact .inl (List.mem_singleton.mp hp)

theorem of_preparePatchedFiles
    (h : preparePatchedFiles boundary files edits documents = .ok pending) :
    (∀ file ∈ pending, pendingOf pending file.document.id = some file
      ∧ ∃ edit ∈ edits, edit.documentId = file.document.id)
    ∧ ∀ edit ∈ edits, ∃ document disk existed,
      Reads boundary files documents edit.documentId document disk existed := by
  induction edits using List.reverseRecOn generalizing pending with
  | nil =>
    obtain rfl := Except.ok.inj h
    exact ⟨fun file hfile => absurd hfile List.not_mem_nil, fun edit hedit =>
      absurd hedit List.not_mem_nil⟩
  | append_singleton edits edit ih =>
    rw [preparePatchedFiles_append] at h
    obtain ⟨before, hbefore, hstep⟩ := Except.bind_eq_ok.mp h
    obtain ⟨hpending, hread⟩ := ih hbefore
    obtain ⟨file, hid, rfl, hnew⟩ := prepareEdit_cases hstep
    refine ⟨fun p hp => ?_, fun other hother => ?_⟩
    · rw [pendingOf_setPending]
      rcases mem_setPending hp with rfl | ⟨hp, hne⟩
      · exact ⟨if_pos rfl, edit, List.mem_append_right _ (List.mem_singleton_self _), hid.symm⟩
      · obtain ⟨hfound, other, hother, hotherId⟩ := hpending p hp
        rw [if_neg (Ne.symm hne)]
        exact ⟨hfound, other, List.mem_append_left _ hother, hotherId⟩
    · rcases List.mem_append.mp hother with hother | hother
      · exact hread other hother
      · -- an edit of a document that is pending was preceded by one of the same document
        rw [List.mem_singleton.mp hother]
        cases hpend : pendingOf before edit.documentId with
        | none => exact hnew hpend
        | some p =>
          obtain ⟨-, other, hother, hotherId⟩ := hpending p (List.mem_of_find?_eq_some hpend)
          have hsame : p.document.id = edit.documentId := by
            have := List.find?_some hpend
            exact of_decide_eq_true this
          rw [← hsame, ← hotherId]
          exact hread other hother

/-- An edit behind others finds its old text at one place; a place that overlaps the first one is not
counted. -/
def Accepts (boundary : String → Except String Unit) (files : Files)
    (documents : List ProjectDocument) (earlier : List TextEdit) (edit : TextEdit) : Prop :=
  ∃ document disk existed, Reads boundary files documents edit.documentId document disk existed
    ∧ FirstOnly edit.oldText (played disk (own earlier edit.documentId))

/-- **Which edits can be prepared**: each of them, behind those in front of it. -/
theorem preparePatchedFiles_ok_iff (hne : ∀ edit ∈ edits, edit.oldText ≠ []) :
    (∃ pending, preparePatchedFiles boundary files edits documents = .ok pending) ↔
      ∀ earlier edit, earlier ++ [edit] <+: edits → Accepts boundary files documents earlier edit := by
  induction edits using List.reverseRecOn with
  | nil =>
    refine iff_of_true ⟨_, rfl⟩ fun earlier edit hfront => ?_
    exact absurd (List.prefix_nil.mp hfront) (List.append_ne_nil_of_right_ne_nil _
      (List.cons_ne_nil _ _))
  | append_singleton edits edit ih =>
    have hlast := hne edit (List.mem_append_right _ (List.mem_singleton_self _))
    have ih := ih fun edit hedit => hne edit (List.mem_append_left _ hedit)
    have hstep : ∀ document disk existed pending,
        Reads boundary files documents edit.documentId document disk existed →
        preparePatchedFiles boundary files edits documents = .ok pending →
        preparePatchedFiles boundary files (edits ++ [edit]) documents =
          (applyEdit document edit (played disk (own edits edit.documentId))).map fun after =>
            setPending pending ⟨document, disk, after, existed⟩ := by
      intro document disk existed pending hreads hpending
      rw [preparePatchedFiles_append, hpending]
      exact prepareEdit_own hreads.1 hreads.2 (find_prepared hpending hreads.1 hreads.2)
    constructor
    · rintro ⟨out, hout⟩ earlier other hfront
      have hbefore := hout
      rw [preparePatchedFiles_append] at hbefore
      obtain ⟨pending, hpending, -⟩ := Except.bind_eq_ok.mp hbefore
      rcases List.prefix_concat_iff.mp hfront with heq | hfront
      · obtain ⟨rfl, hlastEdit⟩ := List.append_inj' heq rfl
        obtain rfl := List.singleton_inj.mp hlastEdit
        obtain ⟨document, disk, existed, hreads⟩ := (of_preparePatchedFiles hout).2 other
          (List.mem_append_right _ (List.mem_singleton_self _))
        rw [hstep document disk existed pending hreads hpending] at hout
        obtain ⟨after, hafter, -⟩ := Except.map_eq_ok.mp hout
        exact ⟨document, disk, existed, hreads, ((applyEdit_eq_ok_iff hlast).mp hafter).1⟩
      · exact ih.mp ⟨pending, hpending⟩ earlier other hfront
    · intro haccepts
      obtain ⟨pending, hpending⟩ := ih.mpr fun earlier other hfront =>
        haccepts earlier other (hfront.trans (List.prefix_append _ _))
      obtain ⟨document, disk, existed, hreads, honly⟩ := haccepts edits edit (List.prefix_refl _)
      rw [hstep document disk existed pending hreads hpending]
      exact ⟨_, Except.map_eq_ok.mpr ⟨_, (applyEdit_eq_ok_iff hlast).mpr ⟨honly, rfl⟩, rfl⟩⟩

def LeavesOne (boundary : String → Except String Unit) (files : Files)
    (documents : List ProjectDocument) (edits : List TextEdit) : Prop :=
  ∃ edit ∈ edits, ∃ document disk existed,
    Reads boundary files documents edit.documentId document disk existed
      ∧ played disk (own edits edit.documentId) = disk

theorem length_filesToApply
    (h : preparePatchedFiles boundary files edits documents = .ok pending) :
    (pending.filter fun file => file.before ≠ file.after).length = pending.length ↔
      ¬ LeavesOne boundary files documents edits := by
  have hprepared : ∀ edit ∈ edits, ∀ document disk existed,
      Reads boundary files documents edit.documentId document disk existed →
        pendingOf pending edit.documentId =
          some ⟨document, disk, played disk (own edits edit.documentId), existed⟩ := by
    intro edit hedit document disk existed hreads
    have hown : own edits edit.documentId ≠ [] :=
      List.ne_nil_of_mem (List.mem_filter.mpr ⟨hedit, by simp⟩)
    rw [find_prepared h hreads.1 hreads.2, prepared, if_neg hown]
  rw [List.length_filter_eq_length_iff]
  constructor
  · rintro hall ⟨edit, hedit, document, disk, existed, hreads, hsame⟩
    have hmem := List.mem_of_find?_eq_some (hprepared edit hedit document disk existed hreads)
    have hchanged := hall _ hmem
    rw [decide_eq_true_iff] at hchanged
    exact hchanged hsame.symm
  · intro hleaves file hfile
    rw [decide_eq_true_iff]
    intro hsame
    obtain ⟨hfound, edit, hedit, hid⟩ := (of_preparePatchedFiles h).1 file hfile
    obtain ⟨document, disk, existed, hreads⟩ := (of_preparePatchedFiles h).2 edit hedit
    have hfile := hprepared edit hedit document disk existed hreads
    rw [hid, hfound, ← hid] at hfile
    cases hfile
    exact hleaves ⟨edit, hedit, document, disk, existed, hreads, hsame.symm⟩

end Boundary

/-! ## The resumed run -/

/-- The edits can be prepared once more, on the patched files, and the revision is that of the
proposal unless they leave a document as it is. -/
def CanPrepareAgain (env : Env) (input : Input) (files : Files) : Prop :=
  (∀ earlier edit, earlier ++ [edit] <+: input.edits →
    Accepts env.boundary files input.documents earlier edit)
  ∧ (LeavesOne env.boundary files input.documents input.edits
    ∨ env.revision files = input.snapshotRevision)

theorem patch_of_applied {env : Env} {input : Input} {recovered : Option Phase} {s s' : Stored}
    (h : applyPatch env input recovered s = (s', .ok ())) : s'.patch = .applied := by
  unfold applyPatch at h
  split at h
  · cases h
  cases recovered with
  | none =>
    dsimp only at h
    split at h
    · cases h
    rw [if_neg (fun hnone => hnone.1 rfl), if_neg nofun] at h
    split at h
    · cases h
    · cases h
      rfl
  | some phase =>
    cases phase with
    | patchApplied =>
      dsimp only at h
      split at h
      · cases h
      · split at h
        · cases h
        · cases h
          rfl
    | patchApproved =>
      dsimp only at h
      split at h
      · cases h
      split at h
      · cases h
      rw [if_neg nofun] at h
      split at h
      · cases h
      · cases h
        rfl

theorem diagnose_ne_preparation (env : Env) (s t : Stored) {e : FlowError}
    (he : ∀ command, e ≠ .diagnostics command) : (t, Except.error e) ≠ diagnose env s := by
  intro h
  have herror := congrArg Prod.snd h
  rw [diagnose] at herror
  dsimp only at herror
  split at herror
  · cases herror
  · exact he _ (Except.error.inj herror)

/-- **A resumed run goes on as the uninterrupted one**, itself resumed or not, exactly when the edits
can be prepared once more. -/
theorem runPatchFlow_resumed_iff {env : Env} {input : Input} {recovered : Option Phase}
    {s s' : Stored} (hne : ∀ edit ∈ input.edits, edit.oldText ≠ [])
    (happlied : applyPatch env input recovered s = (s', .ok ())) :
    runPatchFlow env input (some .patchApplied) s' = runPatchFlow env input recovered s ↔
      CanPrepareAgain env input s'.files := by
  have hwhole : runPatchFlow env input recovered s = diagnose env s' := by
    rw [runPatchFlow, happlied]
  have hpatch := patch_of_applied happlied
  obtain ⟨files, patch, checkpoint, completed⟩ := s'
  dsimp only at hpatch
  subst hpatch
  rw [CanPrepareAgain, ← preparePatchedFiles_ok_iff hne, hwhole, runPatchFlow, applyPatch,
    if_neg (fun h => nomatch h.1)]
  dsimp only
  cases hprepared : preparePatchedFiles env.boundary files input.edits input.documents with
  | error message =>
    refine iff_of_false (diagnose_ne_preparation _ _ _ fun _ h => by cases h) ?_
    rintro ⟨⟨pending, hpending⟩, -⟩
    cases hpending
  | ok prepared =>
    have hall := length_filesToApply hprepared
    dsimp only
    by_cases hstale : ¬ LeavesOne env.boundary files input.documents input.edits
        ∧ env.revision files ≠ input.snapshotRevision
    · rw [if_pos ⟨Option.some_ne_none _, hall.mpr hstale.1, hstale.2⟩]
      refine iff_of_false (diagnose_ne_preparation _ _ _ fun _ h => by cases h) ?_
      rintro ⟨-, hleaves | hrevision⟩
      · exact hstale.1 hleaves
      · exact hstale.2 hrevision
    · rw [if_neg (fun h => hstale ⟨hall.mp h.2.1, h.2.2⟩), if_pos rfl]
      refine iff_of_true rfl ⟨⟨prepared, rfl⟩, ?_⟩
      by_contra hnot
      exact hstale (not_or.mp hnot)

/-! ### A project with one file -/

def oneFile : Env := ⟨fun _ => .ok (), fun _ => "", fun _ _ => none, fun _ => ⟨true, "test"⟩⟩

/-- `"aaa"` is replaced in a file that holds nothing else. -/
def replaceAll (newText : Text) : Input := ⟨[⟨"doc_1", [97, 97, 97], newText⟩], [letters], ""⟩

def approved : Stored := ⟨project, .proposed, none, false⟩

/-- An edit that leaves the file as it is. -/
theorem runPatchFlow_resumed_unchanged :
    let s := (applyPatch oneFile (replaceAll [97, 97, 97]) none approved).1
    runPatchFlow oneFile (replaceAll [97, 97, 97]) (some .patchApplied) s =
        runPatchFlow oneFile (replaceAll [97, 97, 97]) none approved ↔
      CanPrepareAgain oneFile (replaceAll [97, 97, 97]) s.files :=
  runPatchFlow_resumed_iff (by decide) rfl

/-- The old text is not in the patched file any more. -/
theorem runPatchFlow_resumed_stale :
    let s := (applyPatch oneFile (replaceAll [98]) none approved).1
    (runPatchFlow oneFile (replaceAll [98]) none approved).2 = .ok ⟨true, "test"⟩
      ∧ (∃ message, (runPatchFlow oneFile (replaceAll [98]) (some .patchApplied) s).2 =
        .error (.preparation message))
      ∧ runPatchFlow oneFile (replaceAll [98]) (some .patchApplied) s ≠
        runPatchFlow oneFile (replaceAll [98]) none approved := by
  refine ⟨rfl, ⟨_, rfl⟩, fun h => ?_⟩
  have herror := congrArg Prod.snd h
  cases herror

end ThreeXhaust.Patch.Edits.Resume
