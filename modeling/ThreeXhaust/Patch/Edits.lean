import ThreeXhaust.Lib.Occurrences
import ThreeXhaust.Lib.Utf16
import ThreeXhaust.Patch.Prepare

/-!
# Edits of any text

`preparePatchedFiles` of `coding-runtime-patch-apply.ts` on the code units of its texts: what an
edit's old text is looked for in, and what its new text is put into.

An edit is refused as ambiguous when its old text occurs again behind the end of its first
occurrence. An occurrence that overlaps the first one is not seen.
-/

namespace ThreeXhaust.Patch.Edits

open Utf16 Occurrences

/-! ## The source -/

structure TextEdit where
  documentId : String
  oldText : Text
  newText : Text

structure PreparedPatchFile where
  document : ProjectDocument
  before : Text
  after : Text
  existedBefore : Bool

def applyEdit (document : ProjectDocument) (edit : TextEdit) (current : Text) :
    Except String Text :=
  match Chunks.indexOf edit.oldText current with
  | none =>
    let name := displayName document
    .error s!"Patch oldText is stale for {name}"
  | some first =>
    if (Chunks.indexOf edit.oldText (current.drop (first + edit.oldText.length))).isSome then
      let name := displayName document
      .error s!"Patch oldText is ambiguous for {name}"
    else
      .ok (current.take first ++ edit.newText ++ current.drop (first + edit.oldText.length))

section Boundary

-- what `verifyPatchPath` finds wrong with the directories and links on the way to a path
variable (boundary : String → Except String Unit)

def currentContent (files : Files) (document : ProjectDocument) : Except String (Text × Bool) := do
  let existedBefore ← verifyPatchPath boundary files document.relativePath
  match files document.relativePath, existedBefore with
  | some file, true => .ok (units file.content, true)
  | _, _ =>
    if document.virtual then .ok (units document.content, false)
    else
      let name := displayName document
      .error s!"Patch target is unavailable for {name}"

/-- `pending.get(id)`. -/
def pendingOf (pending : List PreparedPatchFile) (id : String) : Option PreparedPatchFile :=
  pending.find? (·.document.id = id)

def setPending (pending : List PreparedPatchFile) (file : PreparedPatchFile) :
    List PreparedPatchFile :=
  if pending.any (·.document.id = file.document.id) then
    pending.map fun p => if p.document.id = file.document.id then file else p
  else pending ++ [file]

def prepareEdit (files : Files) (documents : List ProjectDocument)
    (pending : List PreparedPatchFile) (edit : TextEdit) : Except String (List PreparedPatchFile) :=
  match documentOf documents edit.documentId with
  | none =>
    let id := edit.documentId
    .error s!"Patch references undisclosed document {id}"
  | some document =>
    match pendingOf pending edit.documentId with
    | some previous => do
      -- the path is verified again, the content is the one the edits before it left
      let _ ← verifyPatchPath boundary files document.relativePath
      let after ← applyEdit document edit previous.after
      .ok (setPending pending ⟨document, previous.before, after, previous.existedBefore⟩)
    | none => do
      let (current, existedBefore) ← currentContent boundary files document
      let after ← applyEdit document edit current
      .ok (setPending pending ⟨document, current, after, existedBefore⟩)

def preparePatchedFiles (files : Files) (edits : List TextEdit)
    (documents : List ProjectDocument) : Except String (List PreparedPatchFile) :=
  edits.foldlM (prepareEdit boundary files documents) []

end Boundary

/-! ## One edit -/

def replaced (edit : TextEdit) (current : Text) : Text :=
  match Chunks.indexOf edit.oldText current with
  | none => current
  | some first =>
    current.take first ++ edit.newText ++ current.drop (first + edit.oldText.length)

variable {current : Text}

theorem replaced_of_first {edit : TextEdit} {i : Nat} (hne : edit.oldText ≠ [])
    (h : FirstAt edit.oldText current i) :
    replaced edit current =
      current.take i ++ edit.newText ++ current.drop (i + edit.oldText.length) := by
  rw [replaced, (indexOf_eq_some_iff hne).mpr h]

theorem applyEdit_eq_ok_iff {document : ProjectDocument} {edit : TextEdit} {after : Text}
    (hne : edit.oldText ≠ []) :
    applyEdit document edit current = .ok after ↔
      FirstOnly edit.oldText current ∧ after = replaced edit current := by
  obtain ⟨hnone, hnot⟩ | ⟨i, hsome, hfirst⟩ := indexOf_cases hne current
  · rw [applyEdit, hnone]
    constructor
    · intro h
      cases h
    · rintro ⟨⟨i, hi, -⟩, -⟩
      exact absurd hi.occurs (hnot i)
  · have honly : (Chunks.indexOf edit.oldText (current.drop (i + edit.oldText.length))).isSome = false
        ↔ FirstOnly edit.oldText current := by
      rw [← Bool.not_eq_true, indexOf_drop_isSome_iff hne]
      constructor
      · intro h
        exact ⟨i, hfirst, fun j hj => Nat.lt_of_not_le fun hle => h ⟨j, hle, hj⟩⟩
      · rintro ⟨i', hi', hall⟩ ⟨j, hle, hj⟩
        rw [hi'.unique hfirst] at hall
        exact absurd (hall j hj) (Nat.not_lt.mpr hle)
    rw [applyEdit, hsome, replaced_of_first hne hfirst]
    dsimp only
    split
    · next hambiguous =>
      rw [← honly, hambiguous]
      constructor
      · intro h
        cases h
      · rintro ⟨h, -⟩
        cases h
    · next hnone =>
      rw [← honly, Except.ok.injEq]
      exact ⟨fun h => ⟨Bool.eq_false_iff.mpr hnone, h.symm⟩, fun h => h.2.symm⟩

theorem eq_replaced_of_applyEdit {document : ProjectDocument} {edit : TextEdit} {after : Text}
    (h : applyEdit document edit current = .ok after) : after = replaced edit current := by
  unfold applyEdit at h
  unfold replaced
  split at h
  · cases h
  · split at h
    · cases h
    · exact (Except.ok.inj h).symm

/-! ## The pending files -/

variable {pending : List PreparedPatchFile}

theorem pendingOf_map {file : PreparedPatchFile} {id : String} (hne : file.document.id ≠ id) :
    pendingOf (pending.map fun p => if p.document.id = file.document.id then file else p) id
      = pendingOf pending id := by
  induction pending with
  | nil => rfl
  | cons p rest ih =>
    rw [pendingOf] at ih ⊢
    rw [List.map_cons, pendingOf, List.find?_cons, List.find?_cons, ih]
    by_cases hp : p.document.id = file.document.id
    · -- the replaced file had the id of the new one, which is another
      rw [if_pos hp, decide_eq_false hne, decide_eq_false (hp ▸ hne)]
      rfl
    · rw [if_neg hp]
      rfl

theorem pendingOf_map_self {file : PreparedPatchFile}
    (h : pending.any (·.document.id = file.document.id) = true) :
    pendingOf (pending.map fun p => if p.document.id = file.document.id then file else p)
      file.document.id = some file := by
  induction pending with
  | nil => cases h
  | cons p rest ih =>
    rw [pendingOf] at ih ⊢
    rw [List.map_cons, List.find?_cons]
    by_cases hp : p.document.id = file.document.id
    · rw [if_pos hp, decide_eq_true rfl]
    · rw [List.any_cons, decide_eq_false hp, Bool.false_or] at h
      rw [if_neg hp, decide_eq_false hp]
      exact ih h

theorem pendingOf_setPending (pending : List PreparedPatchFile) (file : PreparedPatchFile)
    (id : String) :
    pendingOf (setPending pending file) id
      = if file.document.id = id then some file else pendingOf pending id := by
  rw [setPending]
  split
  · next hany =>
    split
    · next hid =>
      subst hid
      exact pendingOf_map_self hany
    · next hid => exact pendingOf_map hid
  · next hany =>
    rw [pendingOf, List.find?_append]
    split
    · next hid =>
      subst hid
      have hnone : pending.find? (·.document.id = file.document.id) = none := by
        rw [List.find?_eq_none]
        intro p hp hid
        exact hany (List.any_eq_true.mpr ⟨p, hp, hid⟩)
      rw [hnone, Option.none_or, List.find?_cons, decide_eq_true rfl]
    · next hid =>
      have hnone : [file].find? (·.document.id = id) = none := by
        rw [List.find?_cons, decide_eq_false hid]
        rfl
      rw [hnone, Option.or_none]
      rfl

theorem id_of_documentOf {documents : List ProjectDocument} {id : String}
    {document : ProjectDocument} (h : documentOf documents id = some document) :
    document.id = id := by
  have hfound := List.find?_some (p := fun document : ProjectDocument => decide (document.id = id)) h
  exact of_decide_eq_true hfound

/-! ## All edits of a document -/

def own (edits : List TextEdit) (id : String) : List TextEdit :=
  edits.filter (·.documentId = id)

def played (content : Text) (edits : List TextEdit) : Text :=
  edits.foldl (fun current edit => replaced edit current) content

def prepared (document : ProjectDocument) (disk : Text) (existed : Bool) (edits : List TextEdit) :
    Option PreparedPatchFile :=
  if edits = [] then none else some ⟨document, disk, played disk edits, existed⟩

variable {edits : List TextEdit}

theorem own_append_of_eq {edit : TextEdit} {id : String} (h : edit.documentId = id)
    : own (edits ++ [edit]) id = own edits id ++ [edit] := by
  rw [own, List.filter_append, List.filter_cons_of_pos (by simpa using h)]
  rfl

theorem own_append_of_ne {edit : TextEdit} {id : String} (h : edit.documentId ≠ id)
    : own (edits ++ [edit]) id = own edits id := by
  rw [own, List.filter_append, List.filter_cons_of_neg (by simpa using h), List.filter_nil,
    List.append_nil]
  rfl

section Boundary

variable {boundary : String → Except String Unit} {files : Files}
  {documents : List ProjectDocument} {document : ProjectDocument} {disk : Text} {existed : Bool}

theorem verified_of_currentContent
    (h : currentContent boundary files document = .ok (disk, existed)) :
    ∃ there, verifyPatchPath boundary files document.relativePath = .ok there := by
  obtain ⟨there, hthere, -⟩ := Except.bind_eq_ok.mp h
  exact ⟨there, hthere⟩

theorem prepareEdit_own {edit : TextEdit} {before : List TextEdit}
    (hdoc : documentOf documents edit.documentId = some document)
    (hcurrent : currentContent boundary files document = .ok (disk, existed))
    (hpending : pendingOf pending edit.documentId = prepared document disk existed before) :
    prepareEdit boundary files documents pending edit =
      (applyEdit document edit (played disk before)).map fun after =>
        setPending pending ⟨document, disk, after, existed⟩ := by
  obtain ⟨there, hthere⟩ := verified_of_currentContent hcurrent
  rw [prepareEdit, hdoc]
  dsimp only
  rw [hpending, prepared]
  by_cases hempty : before = []
  · rw [hempty, if_pos rfl]
    dsimp only
    rw [hcurrent]
    show (applyEdit document edit disk >>= _) = (applyEdit document edit disk).map _
    cases applyEdit document edit disk <;> rfl
  · rw [if_neg hempty]
    dsimp only
    rw [hthere]
    show (applyEdit document edit (played disk before) >>= _) =
      (applyEdit document edit (played disk before)).map _
    cases applyEdit document edit (played disk before) <;> rfl

theorem prepareEdit_other {pending' : List PreparedPatchFile} {edit : TextEdit} {id : String}
    (h : prepareEdit boundary files documents pending edit = .ok pending')
    (hne : edit.documentId ≠ id) : pendingOf pending' id = pendingOf pending id := by
  unfold prepareEdit at h
  split at h
  · cases h
  next document hdoc =>
  have hset : ∀ before after existed,
      pendingOf (setPending pending ⟨document, before, after, existed⟩) id
        = pendingOf pending id := by
    intro before after existed
    rw [pendingOf_setPending, if_neg]
    show document.id ≠ id
    rw [id_of_documentOf hdoc]
    exact hne
  split at h
  · obtain ⟨there, -, h⟩ := Except.bind_eq_ok.mp h
    obtain ⟨after, -, h⟩ := Except.bind_eq_ok.mp h
    rw [← Except.ok.inj h, hset]
  · obtain ⟨⟨current, existedBefore⟩, -, h⟩ := Except.bind_eq_ok.mp h
    obtain ⟨after, -, h⟩ := Except.bind_eq_ok.mp h
    rw [← Except.ok.inj h, hset]

theorem preparePatchedFiles_append (edits : List TextEdit) (edit : TextEdit) :
    preparePatchedFiles boundary files (edits ++ [edit]) documents =
      (preparePatchedFiles boundary files edits documents >>= fun pending =>
        prepareEdit boundary files documents pending edit) := by
  rw [preparePatchedFiles, List.foldlM_append]
  refine congrArg _ (funext fun pending => ?_)
  rw [List.foldlM_cons]
  show (prepareEdit boundary files documents pending edit >>= pure) = _
  rw [bind_pure]

/-- **A prepared file is what the edits of its own document make of the content the project
has.** -/
theorem find_prepared {id : String}
    (h : preparePatchedFiles boundary files edits documents = .ok pending)
    (hdoc : documentOf documents id = some document)
    (hcurrent : currentContent boundary files document = .ok (disk, existed)) :
    pendingOf pending id = prepared document disk existed (own edits id) := by
  induction edits using List.reverseRecOn generalizing pending with
  | nil =>
    obtain rfl := Except.ok.inj h
    rfl
  | append_singleton edits edit ih =>
    rw [preparePatchedFiles_append] at h
    obtain ⟨before, hbefore, hstep⟩ := Except.bind_eq_ok.mp h
    have hprepared := ih hbefore
    by_cases hid : edit.documentId = id
    · -- the edit is played behind those of its document
      subst hid
      rw [prepareEdit_own hdoc hcurrent hprepared] at hstep
      cases happly : applyEdit document edit (played disk (own edits edit.documentId)) with
      | error e =>
        rw [happly] at hstep
        cases hstep
      | ok after =>
        rw [happly] at hstep
        have hid := id_of_documentOf hdoc
        rw [← Except.ok.inj hstep, pendingOf_setPending, if_pos hid, own_append_of_eq rfl,
          prepared, if_neg (List.append_ne_nil_of_right_ne_nil _ (List.cons_ne_nil _ _)), played,
          List.foldl_append, eq_replaced_of_applyEdit happly]
        rfl
    · rw [prepareEdit_other hstep hid, hprepared, own_append_of_ne hid]

/-- **Which edits are accepted, and what they change.** After any edits that were accepted, an edit
of a disclosed document whose content can be read is accepted exactly where its old text stands
at one place, but for the contents in which the first place is overlapped and no other stands
behind it. An accepted edit replaces the first place and nothing else of its document, and leaves
the other documents as they are. -/
theorem preparePatchedFiles_accepts {earlier : List TextEdit} {edit : TextEdit}
    {pending : List PreparedPatchFile}
    (hearlier : preparePatchedFiles boundary files earlier documents = .ok pending)
    (hdoc : documentOf documents edit.documentId = some document)
    (hcurrent : currentContent boundary files document = .ok (disk, existed))
    (hne : edit.oldText ≠ []) :
    let content := played disk (own earlier edit.documentId)
    (((∃ out, preparePatchedFiles boundary files (earlier ++ [edit]) documents = .ok out) ↔
        OccursOnce edit.oldText content) ↔ ¬ OverlapsFirst edit.oldText content) ∧
    ∀ out, preparePatchedFiles boundary files (earlier ++ [edit]) documents = .ok out →
      (∃ i, FirstAt edit.oldText content i ∧
        pendingOf out edit.documentId = some ⟨document, disk,
          content.take i ++ edit.newText ++ content.drop (i + edit.oldText.length), existed⟩) ∧
      ∀ id, id ≠ edit.documentId → pendingOf out id = pendingOf pending id := by
  intro content
  have hprepared := find_prepared hearlier hdoc hcurrent
  have hstep : preparePatchedFiles boundary files (earlier ++ [edit]) documents =
      (applyEdit document edit content).map fun after =>
        setPending pending ⟨document, disk, after, existed⟩ := by
    rw [preparePatchedFiles_append, hearlier]
    exact prepareEdit_own hdoc hcurrent hprepared
  have haccepts : (∃ out, preparePatchedFiles boundary files (earlier ++ [edit]) documents
      = .ok out) ↔ FirstOnly edit.oldText content := by
    rw [hstep]
    constructor
    · rintro ⟨out, hout⟩
      obtain ⟨after, hafter, -⟩ := Except.map_eq_ok.mp hout
      exact ((applyEdit_eq_ok_iff hne).mp hafter).1
    · intro honly
      exact ⟨_, Except.map_eq_ok.mpr ⟨_, (applyEdit_eq_ok_iff hne).mpr ⟨honly, rfl⟩, rfl⟩⟩
  refine ⟨by rw [haccepts]; exact first_only_iff hne, fun out hout => ⟨?_, fun id hid => ?_⟩⟩
  · rw [hstep] at hout
    obtain ⟨after, hafter, rfl⟩ := Except.map_eq_ok.mp hout
    obtain ⟨⟨i, hfirst, -⟩, rfl⟩ := (applyEdit_eq_ok_iff hne).mp hafter
    refine ⟨i, hfirst, ?_⟩
    have hid := id_of_documentOf hdoc
    rw [pendingOf_setPending, if_pos hid, replaced_of_first hne hfirst]
  · rw [preparePatchedFiles_append, hearlier] at hout
    exact prepareEdit_other hout (Ne.symm hid)

end Boundary

/-! ### A project with one file -/

def letters : ProjectDocument := ⟨"doc_1", "letters.txt", "aaa", "", false⟩

def project : Files := fun path => if path = "letters.txt" then some ⟨"aaa", 1⟩ else none

/-- `"aaa"` becomes `"b"`. -/
theorem preparePatchedFiles_accepts_whole :
    let edit : TextEdit := ⟨"doc_1", [97, 97, 97], [98]⟩
    (((∃ out, preparePatchedFiles (fun _ => .ok ()) project ([] ++ [edit]) [letters] = .ok out) ↔
        OccursOnce edit.oldText (units "aaa")) ↔ ¬ OverlapsFirst edit.oldText (units "aaa")) :=
  (@preparePatchedFiles_accepts (fun _ => .ok ()) project [letters] letters (units "aaa") true []
    ⟨"doc_1", [97, 97, 97], [98]⟩ [] rfl rfl rfl (List.cons_ne_nil _ _)).1

/-- `"aa"` stands in `"aaa"` at two places, and an edit of it is accepted. -/
theorem preparePatchedFiles_overlap :
    ¬ ∀ (files : Files) (documents : List ProjectDocument) (document : ProjectDocument)
      (edit : TextEdit) (disk : Text) (existed : Bool),
      documentOf documents edit.documentId = some document →
      currentContent (fun _ => .ok ()) files document = .ok (disk, existed) →
      edit.oldText ≠ [] →
      ((∃ out, preparePatchedFiles (fun _ => .ok ()) files [edit] documents = .ok out) ↔
        OccursOnce edit.oldText disk) := by
  intro h
  have hiff := h project [letters] letters ⟨"doc_1", [97, 97], [98]⟩ (units "aaa") true rfl rfl
    (List.cons_ne_nil _ _)
  obtain ⟨i, -, honly⟩ := hiff.mp ⟨_, rfl⟩
  have hfirst : 0 = i := honly 0 (List.isPrefixOf_iff_prefix.mp (by decide))
  have hsecond : 1 = i := honly 1 (List.isPrefixOf_iff_prefix.mp (by decide))
  omega

end ThreeXhaust.Patch.Edits
