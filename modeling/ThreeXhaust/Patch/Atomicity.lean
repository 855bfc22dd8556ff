import ThreeXhaust.Patch.Rollback

/-!
# The files of a patch are written together or not at all

`applyPatchTransaction` on a disk where one call may fail.
-/

namespace ThreeXhaust.Patch

open Crash FileSystem

variable {platform : Platform} {boundary : String → Except String Unit} {umask : Nat → Nat}
  {run i k : Nat} {file : TransactionalPatchFile} {files : List TransactionalPatchFile} {d : Disk}
  {φ : Option Call} {f g h : Listing} {inode : Nat}

/-! ## The names of a list -/

variable {n : Name}

theorem Own.relativePath {P : String} (hn : Own run i P n) : n.relativePath = P := by
  rcases hn with rfl | ⟨role, rfl⟩
  · rfl
  · rfl

/-- A name that one of the files, counted from `k`, may touch. -/
def Touches (run : Nat) : Nat → List TransactionalPatchFile → Name → Prop
  | _, [], _ => False
  | k, file :: rest, n => Own run k file.relativePath n ∨ Touches run (k + 1) rest n

theorem Touches.relativePath :
    ∀ {k : Nat} {files : List TransactionalPatchFile}, Touches run k files n →
      n.relativePath ∈ files.map (·.relativePath)
  | _, [], hn => hn.elim
  | _, _ :: _, .inl hn => by simp [hn.relativePath]
  | _, _ :: _, .inr hn => List.mem_cons_of_mem _ hn.relativePath

theorem Standing.congr (hs : Standing platform boundary umask run i file f g inode)
    (hsame : ∀ n, Own run i file.relativePath n → h n = g n) :
    Standing platform boundary umask run i file f h inode where
  fits := hs.fits
  target := (hsame _ (.inl rfl)).trans hs.target
  backup := (hsame _ (.inr ⟨_, rfl⟩)).trans hs.backup
  temporaries role hrole := (hsame _ (.inr ⟨_, rfl⟩)).trans (hs.temporaries role hrole)

section Lists

variable (platform : Platform) (boundary : String → Except String Unit) (umask : Nat → Nat)
  (run : Nat) (f : Listing)

/-- The records are those of the first files of the list, counted from `k`, and `g` shows these
files as they were committed over `f`. -/
def Stands : Nat → List TransactionalPatchFile → List (Nat × AppliedPatchFile) → Listing → Prop
  | _, _, [], _ => True
  | _, [], _ :: _, _ => False
  | k, file :: rest, (j, opened) :: applied, g =>
    (j = k ∧ ∃ inode, opened = openedAs platform umask run k file f inode
      ∧ Standing platform boundary umask run k file f g inode)
    ∧ Stands (k + 1) rest applied g

inductive Ended (i : Nat) (file : TransactionalPatchFile) (φ : Option Call) (g : Listing)
    (u : Disk) : Prop
  | stale (hfits : ¬ Fits boundary file f)
      (hown : ∀ n, Own run i file.relativePath n → g n = f n) (hu : u.Shows φ g)
  | clean {site : Site} (hφ : φ = some (i, site))
      (hsite : Fits boundary file f → ¬ Exposed platform file.existedBefore site)
      (hown : ∀ n, Own run i file.relativePath n → g n = f n) (hu : u.Shows none g)
  | applied {site : Site} {inode : Nat} (hφ : φ = some (i, site))
      (hsite : Exposed platform file.existedBefore site)
      (hs : Standing platform boundary umask run i file f g inode) (hu : u.Shows none g)
  | moved {site : Site} (hφ : φ = some (i, site))
      (hsite : Exposed platform file.existedBefore site) (hfits : Fits boundary file f)
      (hwin : platform = .win32) (hold : (f (.target file.relativePath)).isSome)
      (htarget : g (.target file.relativePath) = none) (hu : u.Shows none g)

end Lists

theorem Stands.congr {applied : List (Nat × AppliedPatchFile)}
    (hs : Stands platform boundary umask run f k files applied g)
    (hsame : ∀ n, Touches run k files n → h n = g n) :
    Stands platform boundary umask run f k files applied h := by
  induction applied generalizing k files with
  | nil => simp [Stands]
  | cons record applied ih =>
    cases files with
    | nil => exact hs.elim
    | cons file rest =>
      obtain ⟨⟨hj, inode, hopened, hstanding⟩, hrest⟩ := hs
      exact ⟨⟨hj, inode, hopened, hstanding.congr fun n hn => hsame n (.inl hn)⟩,
        ih hrest fun n hn => hsame n (.inr hn)⟩

/-! ## Applying the files -/

structure Looped (platform : Platform) (boundary : String → Except String Unit)
    (umask : Nat → Nat) (run : Nat) (f : Listing) (k : Nat) (files : List TransactionalPatchFile)
    (φ : Option Call) (before : Listing) (result : List (Nat × AppliedPatchFile) × Option PatchError)
    (u : Disk) (g : Listing) : Prop where
  stands : Stands platform boundary umask run f k files result.1 g
  others : ∀ n, ¬ Touches run k files n → g n = before n
  clean : ∀ (j : Nat) (file : TransactionalPatchFile) (site : Site), j < result.1.length →
    files[j]? = some file → φ = some (k + j, site) → ¬ Exposed platform file.existedBefore site
  returned : result.2 = none → u.Shows φ g ∧ result.1.length = files.length
  stopped : ∀ e, result.2 = some e → e.plain ∧ ∃ file, files[result.1.length]? = some file
    ∧ Ended platform boundary umask run f (k + result.1.length) file φ g u
    ∧ ∀ n, Touches run (k + result.1.length + 1) (files.drop (result.1.length + 1)) n → g n = f n

/-- What a crash can leave of a list: some files written, the next one as `Between` says, and the
rest as they were. -/
structure Partly (platform : Platform) (run k : Nat) (files : List TransactionalPatchFile)
    (f g : Listing) (m : Nat) : Prop where
  written : ∀ j < m, ∀ file, files[j]? = some file →
    ∃ e, g (.target file.relativePath) = some e ∧ e.links = 1 ∧ e.content = file.after
  next : ∀ file, files[m]? = some file → g (.target file.relativePath) = f (.target file.relativePath)
    ∨ (platform = .win32 ∧ (f (.target file.relativePath)).isSome
      ∧ g (.target file.relativePath) = none)
    ∨ ∃ e, g (.target file.relativePath) = some e
      ∧ (e.links = 2 ∨ (e.links = 1 ∧ e.content = file.after))
  rest : ∀ j, m < j → ∀ file, files[j]? = some file →
    g (.target file.relativePath) = f (.target file.relativePath)
  others : ∀ n, ¬ Touches run k files n → g n = f n

section Congr

variable {c : Listing} (hT : c (.target file.relativePath) = f (.target file.relativePath))

include hT

theorem fits_congr : Fits boundary file c ↔ Fits boundary file f := by
  unfold Fits
  rw [hT]

theorem openedAs_congr :
    openedAs platform umask run i file c inode = openedAs platform umask run i file f inode := by
  unfold openedAs backupOf modeOf
  rw [hT]

theorem standing_applied (hfresh : ∀ role, c (.temporary file.relativePath run i role) = none)
    (hfits : Fits boundary file f) :
    Standing platform boundary umask run i file f
      (appliedListing platform umask run i file c inode) inode where
  fits := hfits
  target := by
    rw [appliedListing, Function.update_self, modeOf, hT]
    rfl
  backup := by
    rw [appliedListing, Function.update_of_ne target_ne_temporary.symm, Function.update_self]
    cases platform with
    | posix => rfl
    | win32 => exact hT
  temporaries role hrole := by
    rw [appliedListing, Function.update_of_ne target_ne_temporary.symm]
    simp [hrole, hfresh]

end Congr

theorem own_of_not_touches {rest : List TransactionalPatchFile}
    (hnodup : ((file :: rest).map (·.relativePath)).Nodup) (hn : Own run i file.relativePath n) :
    ¬ Touches run k rest n := by
  intro htouches
  rw [List.map_cons, List.nodup_cons] at hnodup
  exact hnodup.1 (hn.relativePath ▸ htouches.relativePath)

variable {c : Listing}

theorem appliedListing_others (hn : ¬ Own run i file.relativePath n) :
    appliedListing platform umask run i file c inode n = c n := by
  obtain ⟨hnT, hnTemporary⟩ := not_own_ne hn
  rw [appliedListing, Function.update_of_ne hnT, Function.update_of_ne (hnTemporary _)]

theorem movedListing_others (hn : ¬ Own run i file.relativePath n) :
    movedListing run i file c n = c n := by
  obtain ⟨hnT, hnTemporary⟩ := not_own_ne hn
  rw [movedListing, Function.update_of_ne hnT, Function.update_of_ne (hnTemporary _)]

variable {u : Disk}

theorem Failed.ended {err : PatchError} (hsame : ∀ n, Own run i file.relativePath n → c n = f n)
    (hfresh : ∀ role, c (.temporary file.relativePath run i role) = none)
    (hfailed : Failed platform boundary umask run i file φ c err u) :
    err.plain ∧ ∃ g, (∀ n, ¬ Own run i file.relativePath n → g n = c n)
      ∧ Ended platform boundary umask run f i file φ g u := by
  have hT := hsame _ (.inl rfl)
  cases hfailed with
  | stale hplain hfits hu =>
    exact ⟨hplain, c, fun _ _ => rfl, .stale (fun hfit => hfits ((fits_congr hT).mpr hfit)) hsame hu⟩
  | clean hplain hφ hsite hu =>
    exact ⟨hplain, c, fun _ _ => rfl,
      .clean hφ (fun hfit => hsite ((fits_congr hT).mpr hfit)) hsame hu⟩
  | applied hplain hφ hfits hsite hu =>
    exact ⟨hplain, _, fun _ hn => appliedListing_others hn,
      .applied hφ hsite (standing_applied hT hfresh ((fits_congr hT).mp hfits)) hu⟩
  | moved hplain hφ hfits hsite hwin hexisted hu =>
    exact ⟨hplain, _, fun _ hn => movedListing_others hn,
      .moved hφ hsite ((fits_congr hT).mp hfits) hwin (((fits_congr hT).mp hfits).isSome hexisted)
        (Function.update_self _ _ _) hu⟩

theorem Between.partly {rest : List TransactionalPatchFile}
    (hnodup : ((file :: rest).map (·.relativePath)).Nodup) (hb : Between platform run k file c g)
    : Partly platform run k (file :: rest) c g 0 where
  written j hj := absurd hj (Nat.not_lt_zero j)
  next := by
    intro first hfirst
    cases hfirst
    exact hb.target
  rest := by
    intro j hj other hother
    apply hb.others
    intro hown
    -- a file further down has another path
    obtain ⟨j, rfl⟩ : ∃ j', j = j' + 1 := ⟨j - 1, by omega⟩
    rw [List.getElem?_cons_succ] at hother
    rw [List.map_cons, List.nodup_cons] at hnodup
    exact hnodup.1 (hown.relativePath ▸ List.mem_map_of_mem (List.mem_of_getElem? hother))
  others n hn := hb.others n fun hown => hn (.inl hown)

theorem Partly.cons {rest : List TransactionalPatchFile} {c' : Listing} {m : Nat}
    (hnodup : ((file :: rest).map (·.relativePath)).Nodup)
    (hwritten : ∃ e, c' file.target = some e ∧ e.links = 1 ∧ e.content = file.after)
    (hothers : ∀ n, ¬ Own run k file.relativePath n → c' n = c n)
    (hp : Partly platform run (k + 1) rest c' g m) :
    Partly platform run k (file :: rest) c g (m + 1) := by
  have hne : ∀ (j : Nat) (other : TransactionalPatchFile), rest[j]? = some other →
      ¬ Own run k file.relativePath (.target other.relativePath) := by
    intro j other hother hown
    rw [List.map_cons, List.nodup_cons] at hnodup
    exact hnodup.1 (hown.relativePath ▸ List.mem_map_of_mem (List.mem_of_getElem? hother))
  constructor
  · intro j hj other hother
    cases j with
    | zero =>
      cases hother
      have hown : Own run k file.relativePath file.target := .inl rfl
      rw [hp.others _ (own_of_not_touches hnodup hown)]
      exact hwritten
    | succ j =>
      rw [List.getElem?_cons_succ] at hother
      exact hp.written j (by omega) other hother
  · intro other hother
    rw [List.getElem?_cons_succ] at hother
    rw [← hothers _ (hne m other hother)]
    exact hp.next other hother
  · intro j hj other hother
    obtain ⟨j, rfl⟩ : ∃ j', j = j' + 1 := ⟨j - 1, by omega⟩
    rw [List.getElem?_cons_succ] at hother
    rw [← hothers _ (hne j other hother)]
    exact hp.rest j (by omega) other hother
  · intro n hn
    rw [hp.others n fun htouches => hn (.inr htouches), hothers n fun hown => hn (.inl hown)]

variable {I : Listing → Prop}

theorem applyFiles_holds (hfresh : ∀ P j role, f (.temporary P run j role) = none)
    (hnodup : (files.map (·.relativePath)).Nodup) (hsame : ∀ n, Touches run k files n → c n = f n)
    (hd : d.Shows φ c) (hI : ∀ g m, Partly platform run k files c g m → I g) :
    Prog.Holds (applyFiles platform boundary umask run k files) d (Leaving I)
      (fun result u => ∃ g, Looped platform boundary umask run f k files φ c result u g)
      (fun _ _ => False) := by
  induction files generalizing k c d with
  | nil =>
    exact Prog.holds_pure ⟨c, trivial, fun _ _ => rfl, nofun, fun _ => ⟨hd, rfl⟩, nofun⟩
  | cons file rest ih =>
    have hown : ∀ n, Own run k file.relativePath n → c n = f n := fun n hn => hsame n (.inl hn)
    have hT := hown _ (.inl rfl)
    have hfreshc : ∀ role, c (.temporary file.relativePath run k role) = none :=
      fun role => (hown _ (.inr ⟨role, rfl⟩)).trans (hfresh _ _ _)
    unfold applyFiles
    refine Prog.holds_bind (Prog.holds_attempt
      (applyOne_holds hd hfreshc fun g hg => hI g 0 (hg.partly hnodup))) ?_
    rintro result u ⟨hok, herror⟩
    cases result with
    | error err =>
      obtain ⟨hplain, g, hothers, hended⟩ := (herror err rfl).ended hown hfreshc
      have hlooped : Looped platform boundary umask run f k (file :: rest) φ c ([], some err) u g := by
        refine ⟨trivial, fun n hn => hothers n fun hown => hn (.inl hown), nofun, nofun, ?_⟩
        rintro e ⟨⟩
        refine ⟨hplain, file, rfl, hended, ?_⟩
        intro n hn
        rw [hothers n fun hown => own_of_not_touches hnodup hown hn]
        exact hsame n (.inr hn)
      cases err with
      | committed message applied => exact hplain.elim
      | error message => exact Prog.holds_pure ⟨g, hlooped⟩
      | io call => exact Prog.holds_pure ⟨g, hlooped⟩
      | originalPreserved backupPath => exact Prog.holds_pure ⟨g, hlooped⟩
      | rollbackIncomplete cause => exact Prog.holds_pure ⟨g, hlooped⟩
    | ok opened =>
      obtain ⟨hfits, hsites, inode, rfl, hu⟩ := hok opened rfl
      have hstanding : Standing platform boundary umask run k file f
          (appliedListing platform umask run k file c inode) inode :=
        standing_applied hT hfreshc ((fits_congr hT).mp hfits)
      have hothers : ∀ n, ¬ Own run k file.relativePath n →
          appliedListing platform umask run k file c inode n = c n :=
        fun n hn => appliedListing_others hn
      have hrest : ∀ n, Touches run (k + 1) rest n →
          appliedListing platform umask run k file c inode n = f n := by
        intro n hn
        rw [hothers n fun hown => own_of_not_touches hnodup hown hn]
        exact hsame n (.inr hn)
      refine Prog.holds_bind (ih (List.Nodup.of_cons hnodup) hrest hu ?_) ?_
      · intro g m hg
        exact hI g (m + 1) (hg.cons hnodup ⟨_, hstanding.target, rfl, rfl⟩ hothers)
      · rintro ⟨applied, failure⟩ v ⟨g, hlooped⟩
        refine Prog.holds_pure
          ⟨g, ⟨⟨rfl, inode, openedAs_congr hT, ?_⟩, hlooped.stands⟩, ?_, ?_, ?_, ?_⟩
        · exact hstanding.congr fun n hn => hlooped.others n (own_of_not_touches hnodup hn)
        · intro n hn
          rw [hlooped.others n fun htouches => hn (.inr htouches),
            hothers n fun hown => hn (.inl hown)]
        · intro j other site hj hother hφ
          cases j with
          | zero =>
            cases hother
            exact hsites site hφ
          | succ j =>
            rw [List.getElem?_cons_succ] at hother
            have hj : j < applied.length := by simpa using hj
            have hindex : k + (j + 1) = k + 1 + j := by omega
            exact hlooped.clean j other site hj hother (hindex ▸ hφ)
        · intro hnone
          obtain ⟨hv, hlength⟩ := hlooped.returned hnone
          exact ⟨hv, by simpa using hlength⟩
        · intro e he
          obtain ⟨hplain, other, hother, hended, huntouched⟩ := hlooped.stopped e he
          have hindex : k + 1 + applied.length = k + (applied.length + 1) := by omega
          refine ⟨hplain, other, hother, ?_, ?_⟩
          · rw [hindex] at hended
            exact hended
          · rw [hindex] at huntouched
            exact huntouched

/-! ## Rolling them back -/

/-- A record of a file that `g` shows as it was committed over `f`. -/
def Recorded (platform : Platform) (boundary : String → Except String Unit) (umask : Nat → Nat)
    (run : Nat) (f g : Listing) (record : Nat × AppliedPatchFile) : Prop :=
  ∃ file inode, record.2 = openedAs platform umask run record.1 file f inode
    ∧ Standing platform boundary umask run record.1 file f g inode

def RecordOwn (run : Nat) (records : List (Nat × AppliedPatchFile)) (n : Name) : Prop :=
  ∃ record ∈ records, Own run record.1 record.2.relativePath n

/-- Every file on record is as it was in `f`, and everything else as it is in `g`. -/
structure RolledBack (run : Nat) (records : List (Nat × AppliedPatchFile)) (f g h : Listing) :
    Prop where
  own : ∀ n, RecordOwn run records n → (h n).map Entry.view = (f n).map Entry.view
  others : ∀ n, ¬ RecordOwn run records n → h n = g n

theorem rollbackFiles_spent (records : List (Nat × AppliedPatchFile)) (hd : Spent d) :
    Prog.Holds (rollbackFiles boundary umask run records) d (fun _ _ u => Anything u.fs.file)
      (fun _ => Spent) (fun _ _ => False) := by
  induction records generalizing d with
  | nil => exact Prog.holds_pure hd
  | cons record rest ih =>
    refine Prog.holds_bind (Prog.holds_attempt (calm_rollback d hd)) ?_
    rintro result u ⟨hok, herror⟩
    have hu : Spent u := by
      cases result with
      | ok a => exact hok a rfl
      | error e => exact herror e rfl
    exact Prog.holds_bind (ih hu) fun _ v hv => Prog.holds_pure hv

theorem rollbackFiles_holds {records : List (Nat × AppliedPatchFile)}
    (hfresh : ∀ P j role, f (.temporary P run j role) = none) (hd : d.Shows φ g)
    (hrecords : ∀ record ∈ records, Recorded platform boundary umask run f g record)
    (hnodup : (records.map (·.2.relativePath)).Nodup) :
    Prog.Holds (rollbackFiles boundary umask run records) d (fun _ _ u => Anything u.fs.file)
      (fun undone u => (undone = true ∧ ∃ h, u.Shows φ h ∧ RolledBack run records f g h)
        ∨ (undone = false ∧ Struck φ u))
      (fun _ _ => False) := by
  induction records generalizing g d with
  | nil =>
    refine Prog.holds_pure (.inl ⟨rfl, g, hd, ?_, fun _ _ => rfl⟩)
    rintro n ⟨record, hmem, -⟩
    cases hmem
  | cons record rest ih =>
    obtain ⟨index, opened⟩ := record
    obtain ⟨file, inode, hopened, hstanding⟩ := hrecords (index, opened) List.mem_cons_self
    have hopened : opened = openedAs platform umask run index file f inode := hopened
    have hstanding : Standing platform boundary umask run index file f g inode := hstanding
    subst hopened
    rw [List.map_cons, List.nodup_cons] at hnodup
    -- the names of the other records are not those of the first
    have hdisjoint : ∀ n, Own run index file.relativePath n → ¬ RecordOwn run rest n := by
      rintro n hn ⟨record, hmem, hown⟩
      refine hnodup.1 (List.mem_map.mpr ⟨record, hmem, ?_⟩)
      exact hown.relativePath.symm.trans hn.relativePath
    unfold rollbackFiles
    refine Prog.holds_bind (Prog.holds_attempt (rollback_holds hd hstanding)) ?_
    rintro result u ⟨hok, herror⟩
    cases result with
    | error e =>
      obtain ⟨hφ, hu⟩ := herror e rfl
      refine Prog.holds_bind (rollbackFiles_spent rest hu) ?_
      intro others v hv
      exact Prog.holds_pure (.inr ⟨by simp [Except.toBool], hφ, hv⟩)
    | ok _ =>
      obtain ⟨h1, hu, hundone⟩ := hok () rfl
      have hrest : ∀ record ∈ rest, Recorded platform boundary umask run f h1 record := by
        intro record hmem
        obtain ⟨other, inode', hrecord, hother⟩ := hrecords record (List.mem_cons_of_mem _ hmem)
        refine ⟨other, inode', hrecord, hother.congr fun n hn => hundone.others n fun hown => ?_⟩
        refine hdisjoint n hown ⟨record, hmem, ?_⟩
        rw [hrecord]
        exact hn
      refine Prog.holds_bind (ih hu hrest hnodup.2) ?_
      rintro others v (⟨rfl, h2, hv, hrolled⟩ | ⟨rfl, hv⟩)
      · refine Prog.holds_pure (.inl ⟨by simp [Except.toBool], h2, hv, ?_, ?_⟩)
        · rintro n ⟨record, hmem, hown⟩
          rcases List.mem_cons.mp hmem with rfl | hmem
          · rw [hrolled.others n (hdisjoint n hown)]
            rcases hown with rfl | ⟨role, rfl⟩
            · exact hundone.target
            · rw [hfresh]
              have hnone := hundone.temporaries role
              rw [show Name.temporary (openedAs platform umask run index file f inode).relativePath
                run index role = .temporary file.relativePath run index role from rfl, hnone]
          · exact hrolled.own n ⟨record, hmem, hown⟩
        · intro n hn
          rw [hrolled.others n fun ⟨record, hmem, hown⟩ =>
            hn ⟨record, List.mem_cons_of_mem _ hmem, hown⟩]
          exact hundone.others n fun hown => hn ⟨_, List.mem_cons_self, hown⟩
      · exact Prog.holds_pure (.inr ⟨by simp, hv⟩)

/-! ## Closing them -/

theorem closeApplied_of_close {C : Disk → Call → Disk → Prop} {M : Disk → Prop}
    {fail : PatchError → Disk → Prop} {first second : Site} {opened : AppliedPatchFile}
    (hclose : ∀ site descriptor u, site = first ∨ site = second → M u →
      Prog.Holds (closeSync i site descriptor) u C (fun _ => M) fail) (hd : M d) :
    Prog.Holds (closeApplied i first second opened) d C (fun _ => M) fail := by
  unfold closeApplied
  refine Prog.holds_bind (M := fun _ => M) (Prog.holds_read (fun _ _ => hd) (by rintro _ ⟨⟩)) ?_
  intro isOpen u hu
  cases opened.originalDescriptor with
  | none =>
    cases isOpen with
    | true => exact Prog.holds_bind (hclose _ _ u (.inl rfl) hu) fun _ v hv => Prog.holds_pure hv
    | false => exact Prog.holds_pure hu
  | some original =>
    cases isOpen with
    | true =>
      refine Prog.holds_bind (hclose _ _ u (.inl rfl) hu) fun _ v hv => ?_
      exact hclose _ _ v (.inr rfl) hv
    | false => exact hclose _ _ u (.inr rfl) hu

theorem closeApplied_holds {first second : Site} {opened : AppliedPatchFile} (hd : d.Shows φ g)
    (hI : I g) :
    Prog.Holds (closeApplied i first second opened) d (Leaving I)
      (fun _ u => u.Shows φ g)
      (fun e u => e.plain ∧ (φ = some (i, first) ∨ φ = some (i, second)) ∧ u.Shows none g) := by
  refine closeApplied_of_close (M := fun u => u.Shows φ g) ?_ hd
  intro site descriptor u hsite hu
  apply Prog.holds_of_bind_pure
  refine close_step hu hI ?_ fun _ v hv => Prog.holds_pure hv
  intro hstrike v hv
  rcases hsite with rfl | rfl
  · exact ⟨trivial, .inl hstrike, hv⟩
  · exact ⟨trivial, .inr hstrike, hv⟩

theorem closeFiles_holds {records : List (Nat × AppliedPatchFile)} (hd : d.Shows φ g) :
    Prog.Holds (closeFiles records) d (fun _ _ u => Anything u.fs.file)
      (fun _ u => u.Shows φ g) (fun e u => e.plain ∧ u.Shows none g ∧ φ ≠ none) := by
  induction records generalizing d with
  | nil => exact Prog.holds_pure hd
  | cons record rest ih =>
    unfold closeFiles
    refine Prog.holds_bind ((closeApplied_holds hd trivial).imp_fail ?_) fun _ u hu => ih hu
    rintro e u ⟨hplain, hφ | hφ, hu⟩
    · exact ⟨hplain, hu, by simp [hφ]⟩
    · exact ⟨hplain, hu, by simp [hφ]⟩

def Finishing : Site → Prop
  | .finishClose => True
  | .finishCloseOriginal => True
  | .removeBackup => True
  | _ => False

theorem finishFiles_holds {records : List (Nat × AppliedPatchFile)} (hd : d.Shows φ g)
    (hs : Stands platform boundary umask run f k files records g)
    (hnodup : (files.map (·.relativePath)).Nodup)
    (hI : ∀ h, (∀ P, h (.target P) = g (.target P)) → (∀ n, ¬ Touches run k files n → h n = g n) →
      I h) :
    Prog.Holds (finishFiles records) d (Leaving I)
      (fun _ u => ∃ h, u.Shows φ h ∧ (∀ P, h (.target P) = g (.target P))
        ∧ (∀ n, ¬ Touches run k files n → h n = g n)
        ∧ (records.length = files.length → ∀ P j role, Touches run k files (.temporary P run j role) →
          h (.temporary P run j role) = none))
      (fun _ u => ∃ j site, φ = some (j, site) ∧ Finishing site ∧ u.fault = none) := by
  induction records generalizing k files d g with
  | nil =>
    refine Prog.holds_pure ⟨g, hd, fun _ => rfl, fun _ _ => rfl, ?_⟩
    intro hlength P j role htouches
    rw [List.length_nil] at hlength
    rw [List.eq_nil_of_length_eq_zero hlength.symm] at htouches
    exact htouches.elim
  | cons record rest ih =>
    cases files with
    | nil => exact hs.elim
    | cons file files =>
      obtain ⟨index, opened⟩ := record
      obtain ⟨⟨rfl, inode, hopened, hstanding⟩, hstands⟩ := hs
      have hopened : opened = openedAs platform umask run index file f inode := hopened
      subst hopened
      have hIg : I g := hI g (fun _ => rfl) fun _ _ => rfl
      unfold finishFiles
      refine Prog.holds_bind ((closeApplied_holds hd hIg).imp_fail ?_) ?_
      · rintro e u ⟨-, hφ | hφ, hu⟩
        · exact ⟨_, _, hφ, trivial, hu.fault⟩
        · exact ⟨_, _, hφ, trivial, hu.fault⟩
      · intro _ u hu
        -- with or without a backup, the listing without it is where the other files start from
        have hnext : ∀ v : Disk, v.Shows φ (Function.update g
            (.temporary file.relativePath run index .backup) none) →
            Prog.Holds (finishFiles rest) v (Leaving I)
              (fun _ u => ∃ h, u.Shows φ h ∧ (∀ P, h (.target P) = g (.target P))
                ∧ (∀ n, ¬ Touches run index (file :: files) n → h n = g n)
                ∧ (((index, openedAs platform umask run index file f inode) :: rest).length
                  = (file :: files).length → ∀ P j role,
                  Touches run index (file :: files) (.temporary P run j role) →
                  h (.temporary P run j role) = none))
              (fun e u => ∃ j site, φ = some (j, site) ∧ Finishing site ∧ u.fault = none) := by
          intro v hv
          have hown : Own run index file.relativePath
              (.temporary file.relativePath run index .backup) := .inr ⟨_, rfl⟩
          have hsame : ∀ n, Touches run (index + 1) files n → Function.update g
              (.temporary file.relativePath run index .backup) none n = g n := by
            intro n hn
            apply Function.update_of_ne
            rintro rfl
            exact own_of_not_touches hnodup hown hn
          have hkept : ∀ n, ¬ Own run index file.relativePath n → Function.update g
              (.temporary file.relativePath run index .backup) none n = g n :=
            fun n hn => Function.update_of_ne ((not_own_ne hn).2 _) _ _
          refine (ih hv (hstands.congr hsame) (List.Nodup.of_cons hnodup) ?_).imp ?_ (fun _ _ h => h)
          · intro h htargets hothers
            refine hI h (fun P => (htargets P).trans (Function.update_of_ne target_ne_temporary _ _)) ?_
            intro n hn
            rw [hothers n fun htouches => hn (.inr htouches), hkept n fun hown => hn (.inl hown)]
          · rintro _ w ⟨h, hw, htargets, hothers, htemporaries⟩
            refine ⟨h, hw, fun P => (htargets P).trans (Function.update_of_ne target_ne_temporary _ _), ?_, ?_⟩
            · intro n hn
              rw [hothers n fun htouches => hn (.inr htouches), hkept n fun hown => hn (.inl hown)]
            · intro hlength P j role htouches
              rcases htouches with hown | htouches
              · rw [hothers _ (own_of_not_touches hnodup hown)]
                rcases hown with hown | ⟨role', hown⟩
                · cases hown
                · cases hown
                  by_cases hrole : role = .backup
                  · rw [hrole, Function.update_self]
                  · rw [Function.update_of_ne (by simp [hrole])]
                    exact hstanding.temporaries role hrole
              · exact htemporaries (by simpa using hlength) P j role htouches
        cases hbackup : backupOf platform file f with
        | none =>
          have hBnone : g (.temporary file.relativePath run index .backup) = none :=
            hstanding.backup.trans hbackup
          have hpath : (openedAs platform umask run index file f inode).backupPath = none := by
            simp [openedAs, hbackup]
          rw [hpath]
          exact hnext u (by rwa [update_absent hBnone])
        | some e =>
          have hBsome : g (.temporary file.relativePath run index .backup) = some e :=
            hstanding.backup.trans hbackup
          have hone : e.links = 1 := by
            cases platform with
            | posix => cases hbackup
            | win32 =>
              have hT : f file.target = some e := hbackup
              rcases hstanding.fits.2 with ⟨hnone, -⟩ | ⟨e', he', -, hone, -⟩
              · cases hT.symm.trans hnone
              · cases hT.symm.trans he'
                exact hone
          have hpath : (openedAs platform umask run index file f inode).backupPath
              = some (.temporary file.relativePath run index .backup) := by
            simp [openedAs, hbackup]
          rw [hpath]
          refine unlink_step hu hIg hBsome hone ?_ (fun hstrike v hv =>
            ⟨_, _, hstrike, trivial, hv.fault⟩) fun _ v hv => hnext v hv
          refine hI _ (fun P => Function.update_of_ne target_ne_temporary _ _) ?_
          intro n hn
          exact Function.update_of_ne ((not_own_ne fun hown => hn (.inl hown)).2 _) _ _

theorem closeFiles_spent {records : List (Nat × AppliedPatchFile)} (hd : Spent d) :
    Prog.Holds (closeFiles records) d (fun _ _ u => Anything u.fs.file) (fun _ => Spent)
      (fun _ _ => False) := by
  have hclose : ∀ (j : Nat) (site : Site) (descriptor : Nat) (u : Disk), Spent u →
      Prog.Holds (closeSync j site descriptor) u (fun _ _ u => Anything u.fs.file) (fun _ => Spent)
        (fun _ _ => False) := by
    intro j site descriptor u hu
    have hne : u.fault ≠ some (j, site) := by simp [show u.fault = none from hu]
    refine Prog.holds_call trivial ?_ ?_
    · intro _ _
      simp only [execute, if_neg hne]
      exact hu
    · intro e he
      simp only [execute, if_neg hne] at he
      cases he
  induction records generalizing d with
  | nil => exact Prog.holds_pure hd
  | cons record rest ih =>
    unfold closeFiles
    exact Prog.holds_bind (closeApplied_of_close (fun _ _ u _ hu => hclose _ _ _ u hu) hd)
      fun _ u hu => ih hu

/-! ## Together or not at all -/

section Statement

variable (platform : Platform) (boundary : String → Except String Unit) (umask : Nat → Nat)
  (run : Nat) (files : List TransactionalPatchFile)

def Restored (f h : Listing) : Prop := ∀ n, (h n).map Entry.view = (f n).map Entry.view

/-- Every target holds its new content under the mode it had, and nothing else changed. -/
structure Completed (f h : Listing) : Prop where
  targets : ∀ file ∈ files, (h (.target file.relativePath)).map Entry.view
    = some (file.after, modeOf umask file f)
  others : ∀ n, (∀ file ∈ files, n ≠ .target file.relativePath) →
    (h n).map Entry.view = (f n).map Entry.view

def AfterLastCommit (f : Listing) (call : Call) : Prop :=
  Finishing call.2
    ∨ (call.1 + 1 = files.length
      ∧ (call.2 = .verifyApplied ∨ call.2 = .readApplied ∨ call.2 = .closeSource)
      ∧ ∀ file ∈ files, Fits boundary file f)

/-- The files of a transaction are written together or not at all: when it throws everything is as
it was, unless the exception says that the rollback is incomplete, and when it returns no call
failed and every file is written. -/
structure Atomic (disk : Disk) : Prop where
  throws : ∀ e, (applyPatchTransaction platform boundary umask run files disk).result = .error e →
    Restored disk.fs.file
        (applyPatchTransaction platform boundary umask run files disk).final.fs.file
      ∨ ∃ cause, e = .rollbackIncomplete cause
  returns : (applyPatchTransaction platform boundary umask run files disk).result = .ok () →
    (applyPatchTransaction platform boundary umask run files disk).final.fault = disk.fault
      ∧ Completed umask files disk.fs.file
        (applyPatchTransaction platform boundary umask run files disk).final.fs.file

/-- The call is reached, at a site where its failure leaves the file changed that it is made
for. -/
def LeavesChanged (f : Listing) (call : Call) : Prop :=
  ∃ file, files[call.1]? = some file ∧ Exposed platform file.existedBefore call.2
    ∧ (∀ other ∈ files.take (call.1 + 1), Fits boundary other f)
    ∧ ¬ (platform = .posix ∧ file.existedBefore = true ∧ file.before = file.after)

end Statement

theorem Stands.records {applied : List (Nat × AppliedPatchFile)}
    (hs : Stands platform boundary umask run f k files applied g) :
    applied.map (·.2.relativePath) = (files.take applied.length).map (·.relativePath)
      ∧ (∀ record ∈ applied, Recorded platform boundary umask run f g record)
      ∧ (∀ file ∈ files.take applied.length, Fits boundary file f)
      ∧ ∀ n, Touches run k files n → RecordOwn run applied n
        ∨ Touches run (k + applied.length) (files.drop applied.length) n := by
  induction applied generalizing k files with
  | nil => exact ⟨rfl, nofun, nofun, fun n hn => .inr hn⟩
  | cons record applied ih =>
    cases files with
    | nil => exact hs.elim
    | cons file rest =>
      obtain ⟨index, opened⟩ := record
      obtain ⟨⟨rfl, inode, hopened, hstanding⟩, hrest⟩ := hs
      have hopened : opened = openedAs platform umask run index file f inode := hopened
      subst hopened
      obtain ⟨hpaths, hrecorded, hfits, htouches⟩ := ih hrest
      have hindex : index + 1 + applied.length = index + (applied.length + 1) := by omega
      refine ⟨?_, ?_, ?_, ?_⟩
      · simp only [List.map_cons, List.length_cons, List.take_succ_cons, hpaths]
        rfl
      · intro record hmem
        rcases List.mem_cons.mp hmem with rfl | hmem
        · exact ⟨file, inode, rfl, hstanding⟩
        · exact hrecorded record hmem
      · intro other hmem
        rw [List.length_cons, List.take_succ_cons] at hmem
        rcases List.mem_cons.mp hmem with rfl | hmem
        · exact hstanding.fits
        · exact hfits other hmem
      · rintro n (hown | hn)
        · exact .inl ⟨_, List.mem_cons_self, hown⟩
        · rcases htouches n hn with ⟨record, hmem, hown⟩ | hn
          · exact .inl ⟨record, List.mem_cons_of_mem _ hmem, hown⟩
          · rw [hindex] at hn
            exact .inr hn

theorem Standing.restored_iff (hfresh : ∀ P j role, f (.temporary P run j role) = none)
    (hs : Standing platform boundary umask run i file f g inode) :
    (∀ n, Own run i file.relativePath n → (g n).map Entry.view = (f n).map Entry.view)
      ↔ platform = .posix ∧ file.existedBefore = true ∧ file.before = file.after := by
  constructor
  · intro hview
    have htarget := hview _ (.inl rfl)
    have hbackup := hview _ (.inr ⟨.backup, rfl⟩)
    rw [hs.target] at htarget
    rw [hs.backup, hfresh] at hbackup
    rcases hs.fits.2 with ⟨hT, -⟩ | ⟨e, hT, hexisted, -, hcontent⟩
    · rw [hT] at htarget
      cases htarget
    · rw [hT] at htarget
      have hcontents : file.after = e.content := congrArg Prod.fst (Option.some.inj htarget)
      cases platform with
      | posix => exact ⟨rfl, hexisted, hcontent.symm.trans hcontents.symm⟩
      | win32 =>
        -- the backup is left beside the target
        have hsome : backupOf .win32 file f = some e := hT
        rw [hsome] at hbackup
        cases hbackup
  · rintro ⟨rfl, hexisted, hsame⟩ n hn
    rcases hs.fits.2 with ⟨-, hnew⟩ | ⟨e, hT, -, -, hcontent⟩
    · exact nomatch hexisted.symm.trans hnew
    · rcases hn with rfl | ⟨role, rfl⟩
      · rw [hs.target, hT, ← hsame, ← hcontent, modeOf, hT]
        rfl
      · rw [hfresh]
        by_cases hrole : role = .backup
        · rw [hrole, hs.backup]
          rfl
        · rw [hs.temporaries role hrole]

theorem Looped.leaves {applied : List (Nat × AppliedPatchFile)} {failure : Option PatchError}
    (hlooped : Looped platform boundary umask run f 0 files φ f (applied, failure) u g)
    (hfile : files[applied.length]? = some file) :
    ∀ call, φ = some call → LeavesChanged platform boundary files f call →
      Fits boundary file f ∧ ∃ other, files[call.1]? = some other
        ∧ Exposed platform other.existedBefore call.2 := by
  rintro ⟨j, site⟩ hφ ⟨other, hother, hsite, hall, -⟩
  refine ⟨hall file ?_, other, hother, hsite⟩
  have hle : applied.length ≤ j := by
    by_contra hlt
    exact hlooped.clean j other site (Nat.lt_of_not_le hlt) hother (by rw [hφ]; simp) hsite
  exact List.mem_of_getElem? (by rw [List.getElem?_take_of_lt (Nat.lt_succ_of_le hle), hfile])

/-- What the rollbacks make of a loop that was stopped: everything is as it was, or the call that
failed leaves its file changed. -/
theorem Looped.rolledBack {applied : List (Nat × AppliedPatchFile)} {e : PatchError}
    (hfresh : ∀ P j role, f (.temporary P run j role) = none)
    (hnodup : (files.map (·.relativePath)).Nodup)
    (hlooped : Looped platform boundary umask run f 0 files φ f (applied, some e) u g)
    (hrolled : RolledBack run applied.reverse f g h) :
    (Restored f h ∧ ¬ ∃ call, φ = some call ∧ LeavesChanged platform boundary files f call)
      ∨ (¬ Restored f h ∧ ∃ call, φ = some call ∧ LeavesChanged platform boundary files f call) := by
  obtain ⟨hpaths, -, hfits, htouches⟩ := hlooped.stands.records
  obtain ⟨-, file, hfile, hended, hrest⟩ := hlooped.stopped e rfl
  have hpaths : applied.map (·.2.relativePath) = (files.take applied.length).map (·.relativePath) :=
    hpaths
  have hfile : files[applied.length]? = some file := hfile
  rw [Nat.zero_add] at hended htouches hrest
  have hreverse : ∀ n, RecordOwn run applied.reverse n ↔ RecordOwn run applied n := by
    intro n
    simp [RecordOwn]
  have hdrop : files.drop applied.length = file :: files.drop (applied.length + 1) :=
    List.drop_eq_getElem?_toList_append.trans (by rw [hfile]; rfl)
  -- the names of the file that stopped the loop are those of no file on record
  have hkept : ∀ n, Own run applied.length file.relativePath n → h n = g n := by
    intro n hn
    refine hrolled.others n fun hown => ?_
    obtain ⟨record, hmem, hrecord⟩ := (hreverse n).mp hown
    have hpath : file.relativePath ∈ (files.take applied.length).map (·.relativePath) := by
      rw [← hpaths, ← hn.relativePath, hrecord.relativePath]
      exact List.mem_map_of_mem hmem
    have hsplit := hnodup
    rw [← List.take_append_drop applied.length files, List.map_append, hdrop] at hsplit
    exact List.disjoint_of_nodup_append hsplit hpath List.mem_cons_self
  have hothers : ∀ n, ¬ Own run applied.length file.relativePath n →
      (h n).map Entry.view = (f n).map Entry.view := by
    intro n hn
    by_cases hrecord : RecordOwn run applied n
    · exact hrolled.own n ((hreverse n).mpr hrecord)
    · rw [hrolled.others n fun hown => hrecord ((hreverse n).mp hown)]
      by_cases htouch : Touches run 0 files n
      · rcases htouches n htouch with hown | htouch
        · exact absurd hown hrecord
        · rw [hdrop] at htouch
          rcases htouch with hown | htouch
          · exact absurd hown hn
          · rw [hrest n htouch]
      · rw [hlooped.others n htouch]
  have hrestored : Restored f h ↔ ∀ n, Own run applied.length file.relativePath n →
      (g n).map Entry.view = (f n).map Entry.view := by
    constructor
    · intro hall n hn
      rw [← hkept n hn]
      exact hall n
    · intro hown n
      by_cases hn : Own run applied.length file.relativePath n
      · rw [hkept n hn]
        exact hown n hn
      · exact hothers n hn
  have hleaves := hlooped.leaves hfile
  have hall : Fits boundary file f → ∀ other ∈ files.take (applied.length + 1),
      Fits boundary other f := by
    intro hfit other hmem
    rw [List.take_add_one, hfile] at hmem
    rcases List.mem_append.mp hmem with hmem | hmem
    · exact hfits other hmem
    · rw [List.mem_singleton.mp hmem]
      exact hfit
  cases hended with
  | stale hstale hown hu =>
    refine .inl ⟨hrestored.mpr fun n hn => by rw [hown n hn], ?_⟩
    rintro ⟨call, hφ, hleft⟩
    exact hstale (hleaves call hφ hleft).1
  | clean hφ hsite hown hu =>
    refine .inl ⟨hrestored.mpr fun n hn => by rw [hown n hn], ?_⟩
    rintro ⟨call, hcall, hleft⟩
    obtain ⟨hfit, other, hother, hexposed⟩ := hleaves call hcall hleft
    cases hφ.symm.trans hcall
    cases hfile.symm.trans hother
    exact hsite hfit hexposed
  | applied hφ hsite hs hu =>
    rw [hrestored, hs.restored_iff hfresh]
    by_cases hnoop : platform = .posix ∧ file.existedBefore = true ∧ file.before = file.after
    · refine .inl ⟨hnoop, ?_⟩
      rintro ⟨call, hcall, other, hother, -, -, hvisible⟩
      cases hφ.symm.trans hcall
      cases hfile.symm.trans hother
      exact hvisible hnoop
    · exact .inr ⟨hnoop, _, hφ, file, hfile, hsite, hall hs.fits, hnoop⟩
  | moved hφ hsite hfit hwin hold htarget hu =>
    refine .inr ⟨?_, _, hφ, file, hfile, hsite, hall hfit, fun hnoop => ?_⟩
    · intro hres
      have hT := hrestored.mp hres _ (.inl rfl)
      rw [htarget] at hT
      obtain ⟨e', he'⟩ := Option.isSome_iff_exists.mp hold
      rw [he'] at hT
      cases hT
    · rw [hwin] at hnoop
      exact nomatch hnoop.1

theorem Stands.targets {applied : List (Nat × AppliedPatchFile)}
    (hs : Stands platform boundary umask run f k files applied g)
    (hlength : applied.length = files.length) :
    ∀ file ∈ files, (g file.target).map Entry.view
      = some (file.after, modeOf umask file f) := by
  induction applied generalizing k files with
  | nil =>
    intro file hmem
    rw [List.eq_nil_of_length_eq_zero hlength.symm] at hmem
    cases hmem
  | cons record applied ih =>
    cases files with
    | nil => exact hs.elim
    | cons first rest =>
      obtain ⟨⟨-, inode, -, hstanding⟩, hrest⟩ := hs
      intro file hmem
      rcases List.mem_cons.mp hmem with rfl | hmem
      · rw [hstanding.target]
        rfl
      · exact ih hrest (by simpa using hlength) file hmem

theorem touches_target {P : String} (hn : Touches run k files (.target P)) :
    ∃ file ∈ files, Name.target P = .target file.relativePath := by
  have hpath := hn.relativePath
  obtain ⟨file, hmem, hfile⟩ := List.mem_map.mp hpath
  exact ⟨file, hmem, by rw [hfile]; rfl⟩

variable (platform umask) in
theorem applyPatchTransaction_holds (hd : d.Shows φ f)
    (hfresh : ∀ P j role, f (.temporary P run j role) = none)
    (hnodup : (files.map (·.relativePath)).Nodup)
    (hdomain : ∀ call, φ = some call → ¬ AfterLastCommit boundary files f call) :
    Prog.Holds (applyPatchTransaction platform boundary umask run files) d
      (fun _ _ u => Anything u.fs.file)
      (fun _ u => u.fault = φ ∧ Completed umask files f u.fs.file
        ∧ ¬ ∃ call, φ = some call ∧ LeavesChanged platform boundary files f call)
      (fun e u => ((∃ cause, e = .rollbackIncomplete cause)
          ∧ ¬ ∃ call, φ = some call ∧ LeavesChanged platform boundary files f call)
        ∨ (e.plain ∧ ((Restored f u.fs.file
            ∧ ¬ ∃ call, φ = some call ∧ LeavesChanged platform boundary files f call)
          ∨ (¬ Restored f u.fs.file
            ∧ ∃ call, φ = some call ∧ LeavesChanged platform boundary files f call)))) := by
  unfold applyPatchTransaction
  refine Prog.holds_bind ((applyFiles_holds hfresh hnodup (fun _ _ => rfl) hd
    fun _ _ _ => trivial).imp_fail fun _ _ hfalse => hfalse.elim) ?_
  rintro ⟨applied, failure⟩ u ⟨g, hlooped⟩
  cases failure with
  | none =>
    obtain ⟨hu, hlength⟩ := hlooped.returned rfl
    have hlength : applied.length = files.length := hlength
    refine (finishFiles_holds hu hlooped.stands hnodup fun _ _ _ => trivial).imp ?_ ?_
    · rintro _ v ⟨h, hv, htargets, hothers, htemporaries⟩
      refine ⟨hv.fault, ?_, ?_⟩
      · rw [hv.file]
        refine ⟨fun file hmem => ?_, fun n hn => ?_⟩
        · rw [htargets]
          exact hlooped.stands.targets hlength file hmem
        · by_cases htouch : Touches run 0 files n
          · cases n with
            | target P =>
              obtain ⟨file, hmem, heq⟩ := touches_target htouch
              exact absurd heq (hn file hmem)
            | temporary P run' j role =>
              obtain rfl : run' = run := by
                obtain ⟨record, -, hown⟩ | htouch := hlooped.stands.records.2.2.2 _ htouch
                · rcases hown with hown | ⟨_, hown⟩
                  · cases hown
                  · cases hown
                    rfl
                · have hlength : List.drop applied.length files = [] := by simp [hlength]
                  rw [show (applied, (none : Option PatchError)).1 = applied from rfl, hlength]
                    at htouch
                  exact htouch.elim
              rw [htemporaries hlength P j role htouch, hfresh]
          · rw [hothers n htouch, hlooped.others n htouch]
      · rintro ⟨⟨j, site⟩, hφ, other, hother, hsite, -⟩
        have hj : j < files.length := by
          by_contra hge
          rw [List.getElem?_eq_none (Nat.le_of_not_lt hge)] at hother
          cases hother
        exact hlooped.clean j other site (hlength ▸ hj) hother (by rw [hφ]; simp) hsite
    · rintro e v ⟨j, site, hφ, hfinishing, -⟩
      exact absurd (.inl hfinishing) (hdomain _ hφ)
  | some e =>
    obtain ⟨hplain, file, hfile, hended, -⟩ := hlooped.stopped e rfl
    obtain ⟨hpaths, hrecorded, -, -⟩ := hlooped.stands.records
    have hpaths : applied.map (·.2.relativePath)
        = (files.take applied.length).map (·.relativePath) := hpaths
    have hfile : files[applied.length]? = some file := hfile
    -- the fault that is still to come, if any
    obtain ⟨ψ, hu, hψ⟩ : ∃ ψ, u.Shows ψ g ∧ (ψ ≠ none → ¬ Fits boundary file f) := by
      cases hended with
      | stale hfits hown hu => exact ⟨φ, hu, fun _ => hfits⟩
      | clean hφ hsite hown hu => exact ⟨none, hu, fun hne => absurd rfl hne⟩
      | applied hφ hsite hs hu => exact ⟨none, hu, fun hne => absurd rfl hne⟩
      | moved hφ hsite hfits hwin hold htarget hu => exact ⟨none, hu, fun hne => absurd rfl hne⟩
    have hrecords : ∀ record ∈ applied.reverse,
        Recorded platform boundary umask run f g record :=
      fun record hmem => hrecorded record (List.mem_reverse.mp hmem)
    have hdistinct : (applied.reverse.map (·.2.relativePath)).Nodup := by
      rw [List.map_reverse, List.nodup_reverse, hpaths, List.map_take]
      exact hnodup.sublist (List.take_sublist _ _)
    refine Prog.holds_bind ((rollbackFiles_holds hfresh hu hrecords hdistinct).imp_fail fun _ _ hfalse => hfalse.elim) ?_
    rintro undone v (⟨rfl, h, hv, hrolled⟩ | ⟨rfl, hne, hv⟩)
    · have hsettled := hlooped.rolledBack hfresh hnodup hrolled
      refine Prog.holds_bind ((closeFiles_holds hv).imp_fail ?_) ?_
      · rintro e' w ⟨hplain', hw, -⟩
        rw [hw.file]
        exact .inr ⟨hplain', hsettled⟩
      · intro _ w hw
        refine Prog.holds_throw (.inr ⟨hplain, ?_⟩)
        rw [hw.file]
        exact hsettled
    · refine Prog.holds_bind ((closeFiles_spent hv).imp_fail fun _ _ hfalse => hfalse.elim) ?_
      intro _ w _
      refine Prog.holds_throw (.inl ⟨⟨_, rfl⟩, ?_⟩)
      rintro ⟨call, hφ, hleft⟩
      exact hψ hne (hlooped.leaves hfile call hφ hleft).1

/-- **A patch is written whole or not at all**, whichever call fails before the last file is
committed, exactly when that call is not one whose failure the rollback does not see: a look at a
file just committed or the close of its old descriptor, the removal of a stage that is already
linked, or, on Windows, a look at the file just moved aside. -/
theorem transactions_are_atomic (disk : Disk) (hsound : disk.fs.Sound)
    (hfresh : ∀ P j role, disk.fs.file (.temporary P run j role) = none)
    (hnodup : (files.map (·.relativePath)).Nodup)
    (hdomain : ∀ call, disk.fault = some call →
      ¬ AfterLastCommit boundary files disk.fs.file call) :
    Atomic platform boundary umask run files disk
      ↔ ¬ ∃ call, disk.fault = some call
        ∧ LeavesChanged platform boundary files disk.fs.file call := by
  have hholds := applyPatchTransaction_holds platform umask ⟨rfl, rfl, hsound⟩ hfresh hnodup hdomain
  constructor
  · rintro ⟨hthrows, -⟩ hleft
    cases hresult : (applyPatchTransaction platform boundary umask run files disk).result with
    | ok _ => exact (hholds.returns () hresult).2.2 hleft
    | error e =>
      rcases hholds.throws e hresult with ⟨-, hnot⟩ | ⟨hplain, ⟨-, hnot⟩ | ⟨hchanged, -⟩⟩
      · exact hnot hleft
      · exact hnot hleft
      · rcases hthrows e hresult with hrestored | ⟨cause, rfl⟩
        · exact hchanged hrestored
        · exact hplain.elim
  · intro hnot
    refine ⟨fun e he => ?_, fun hok => ?_⟩
    · rcases hholds.throws e he with ⟨hincomplete, -⟩ | ⟨-, ⟨hrestored, -⟩ | ⟨-, hleft⟩⟩
      · exact .inr hincomplete
      · exact .inl hrestored
      · exact absurd hleft hnot
    · obtain ⟨hfault, hcompleted, -⟩ := hholds.returns () hok
      exact ⟨hfault, hcompleted⟩

/-- Two files of a project, and the call that is going to fail. -/
def twoFiles (fault : Option Call) : Disk where
  fs := {
    names := fun n =>
      if n = .target "a" then some 0 else if n = .target "b" then some 1 else none
    inodes := fun i => ⟨if i = 0 then "left" else "right", 420, 1⟩
    next := 2 }
  fault := fault
  descriptors := []

def twoEdits : List TransactionalPatchFile :=
  [⟨"a", "left", "LEFT", true⟩, ⟨"b", "right", "RIGHT", true⟩]

theorem twoFiles_names {fault : Option Call} {e : Entry String}
    (h : (twoFiles fault).fs.file n = some e) :
    (n = .target "a" ∧ e.inode = 0) ∨ (n = .target "b" ∧ e.inode = 1) := by
  obtain ⟨hn, -⟩ := Fs.names_of_file h
  simp only [twoFiles] at hn
  split at hn
  · exact .inl ⟨‹_›, (Option.some.inj hn).symm⟩
  · split at hn
    · exact .inr ⟨‹_›, (Option.some.inj hn).symm⟩
    · cases hn

theorem twoFiles_sound (fault : Option Call) : (twoFiles fault).fs.Sound where
  used := by
    intro n e h
    rcases twoFiles_names h with ⟨-, hi⟩ | ⟨-, hi⟩
    · rw [hi]
      exact Nat.zero_lt_two
    · rw [hi]
      exact Nat.one_lt_two
  single := by
    intro n m e e' hn hm hinode _
    rcases twoFiles_names hn with ⟨rfl, hi⟩ | ⟨rfl, hi⟩ <;>
      rcases twoFiles_names hm with ⟨rfl, hj⟩ | ⟨rfl, hj⟩ <;>
      first | rfl | omega

/-- The second file cannot be moved onto its target: the first is put back. -/
theorem transactions_are_atomic_rolledBack :
    Atomic .posix (fun _ => .ok ()) id 0 twoEdits (twoFiles (some (1, .renameStage))) := by
  refine (transactions_are_atomic _ (twoFiles_sound _) (fun _ _ _ => rfl) (by decide) ?_).mpr ?_
  · rintro call hcall (hfinishing | ⟨-, hsite | hsite | hsite, -⟩) <;> cases hcall
    · exact hfinishing
    · cases hsite
    · cases hsite
    · cases hsite
  · rintro ⟨call, hcall, file, -, hexposed, -⟩
    cases hcall
    exact hexposed

/-- The look at the first file after it was moved onto its target fails: the file stays changed,
and nothing says so. -/
theorem failed_look_leaves_the_file_changed :
    ¬ AfterLastCommit (fun _ => .ok ()) twoEdits (twoFiles none).fs.file (0, .verifyApplied)
      ∧ ¬ Atomic .posix (fun _ => .ok ()) id 0 twoEdits (twoFiles (some (0, .verifyApplied))) := by
  refine ⟨?_, fun h => ?_⟩
  · rintro (hfinishing | ⟨hlast, -⟩)
    · exact hfinishing
    · exact absurd hlast (by decide)
  have hresult : (applyPatchTransaction .posix (fun _ => .ok ()) id 0 twoEdits
      (twoFiles (some (0, .verifyApplied)))).result = .error (.io (0, .verifyApplied)) := rfl
  rcases h.throws _ hresult with hrestored | ⟨cause, hcause⟩
  · exact absurd (hrestored (.target "a")) (by decide +kernel)
  · cases hcause

end ThreeXhaust.Patch
