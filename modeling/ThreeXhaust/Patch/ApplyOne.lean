import ThreeXhaust.Patch.TransactionSteps

/-!
# One file of a patch transaction

* **`applyOne_holds`** — what `applyOne` leaves (`Applied`, `Failed`), whichever call fails.
* **`Between`** — what the names show in between.
-/

namespace ThreeXhaust.Patch

open Crash FileSystem

variable {boundary : String → Except String Unit} {umask : Nat → Nat} {run : Nat}
  {I : Listing → Prop} {d : Disk} {φ : Option Call} {f : Listing} {i : Nat}

/-- The stage that `openStage` leaves. -/
def stagedAs (path : Name) (content : String) (mode inode : Nat) (f : Listing) : Listing :=
  Function.update f path (some ⟨⟨content, mode, 1⟩, inode⟩)

theorem update_absent {n : Name} (h : f n = none) : Function.update f n none = f := by
  rw [← h, Function.update_eq_self]

variable {P : String}

/-- **The stage** is made, or nothing of it is left. -/
theorem openStage_holds {role : TemporaryRole} {site : StageCall → Site} {content : String}
    {mode : Option Nat} (hd : d.Shows φ f) (hS : f (.temporary P run i role) = none)
    (hI : ∀ entry, I (Function.update f (.temporary P run i role) entry)) :
    Prog.Holds (openStage umask run i role site P content mode) d (Leaving I)
      (fun staged u => ∃ inode,
        staged = ⟨inode, .temporary P run i role, ⟨inode, mode.getD (umask 0o644), 1⟩⟩
        ∧ u.Shows φ (stagedAs (.temporary P run i role) content (mode.getD (umask 0o644)) inode f))
      (fun e u => ∃ call, φ = some (i, site call) ∧ e = .io (i, site call) ∧ u.Shows none f) := by
  generalize hstage : Name.temporary P run i role = S at hS hI ⊢
  have hIf : I f := update_absent hS ▸ hI none
  unfold openStage
  rw [hstage]
  obtain ⟨hfault, rfl, hsound⟩ := hd
  obtain ⟨fs', hcreate, hfile, -, hsound'⟩ :=
    Fs.create_file hsound hS "" (umask (mode.getD 0o644))
  have hcreated : ({ d with fs := fs', descriptors := d.fs.next :: d.descriptors } : Disk).Shows φ
      (Function.update d.fs.file S (some ⟨⟨"", umask (mode.getD 0o644), 1⟩, d.fs.next⟩)) :=
    ⟨hfault, hfile, hsound'⟩
  refine fsCall_step ⟨hfault, rfl, hsound⟩ hIf (by rw [hcreate]) hcreated (hI _) ?_ ?_
  · intro hstrike u hu
    exact ⟨_, hstrike, rfl, hu⟩
  · intro _
    -- whatever fails from here on is thrown again when the stage is gone
    refine Prog.holds_onError (Q := fun e u => ∃ call, φ = some (i, site call)
      ∧ e = .io (i, site call) ∧ ∃ entry, entry.links = 1
        ∧ u.Shows none (Function.update d.fs.file S (some entry))) ?_ ?_
    · have hrest : ∀ u entry, entry.links = 1 → entry.inode = d.fs.next →
          entry.mode = mode.getD (umask 0o644) →
          u.Shows φ (Function.update d.fs.file S (some entry)) →
          Prog.Holds (do
              fsCall i (site .write) (change fun fs => some (fs.write d.fs.next content))
              let stats ← fstatSync i (site .stat) d.fs.next
              pure ⟨d.fs.next, S, stats⟩ : Patching Staged) u (Leaving I)
            (fun staged u => ∃ inode, staged = ⟨inode, S, ⟨inode, mode.getD (umask 0o644), 1⟩⟩
              ∧ u.Shows φ (stagedAs S content (mode.getD (umask 0o644)) inode d.fs.file))
            (fun e u => ∃ call, φ = some (i, site call) ∧ e = .io (i, site call)
              ∧ ∃ entry, entry.links = 1
                ∧ u.Shows none (Function.update d.fs.file S (some entry))) := by
        intro u entry hone hinode hmode hu
        have hSentry : u.fs.file S = some entry := by rw [hu.file, Function.update_self]
        obtain ⟨hwritten, hwsound⟩ := Fs.write_file hu.sound hSentry hone content
        rw [hu.file, Function.update_idem, hinode, hmode] at hwritten
        rw [hinode] at hwsound
        refine change_step hu (hI _) ⟨_, rfl, hwritten, hwsound⟩ (hI _) ?_ ?_
        · intro hstrike u' hu'
          exact ⟨_, hstrike, rfl, entry, hone, hu'⟩
        · intro _ u' hu'
          refine fstat_step (n := S) (e := ⟨⟨content, mode.getD (umask 0o644), 1⟩, d.fs.next⟩) hu'
            (hI _) (Function.update_self _ _ _) ?_ ?_
          · intro hstrike u'' hu''
            exact ⟨_, hstrike, rfl, _, rfl, hu''⟩
          · intro _
            exact Prog.holds_pure ⟨_, rfl, hu'⟩
      cases hmode : mode with
      | none =>
        subst hmode
        exact hrest _ _ rfl rfl rfl hcreated
      | some m =>
        subst hmode
        have hSnew : fs'.file S = some ⟨⟨"", umask m, 1⟩, d.fs.next⟩ := by
          rw [hfile, Function.update_self]
          rfl
        obtain ⟨fs2, hchmod, hfile2, -, hsound2⟩ := Fs.chmod_file hsound' hSnew rfl m
        rw [hfile, Function.update_idem] at hfile2
        refine change_step hcreated (hI _) ⟨fs2, hchmod, hfile2, hsound2⟩ (hI _) ?_ ?_
        · intro hstrike u hu
          exact ⟨_, hstrike, rfl, _, rfl, hu⟩
        · intro _ u hu
          exact hrest u _ rfl rfl rfl hu
    · rintro e u ⟨call, hcall, he, entry, hone, hu⟩
      refine close_step hu (hI _) nofun ?_
      intro _ u' hu'
      apply Prog.holds_of_bind_pure
      refine rmForce_present hu' (hI _) (Function.update_self _ _ _) hone ?_
        nofun ?_
      · rw [Function.update_idem]
        exact hI none
      · intro _ u'' hu''
        rw [Function.update_idem, update_absent hS] at hu''
        exact Prog.holds_pure ⟨call, hcall, he, hu''⟩

/-! ## What one file leaves -/

def Own (run i : Nat) (P : String) (n : Name) : Prop :=
  n = .target P ∨ ∃ role, n = .temporary P run i role

section Names

variable (file : TransactionalPatchFile) (run i : Nat)

abbrev TransactionalPatchFile.target : Name := .target file.relativePath

abbrev TransactionalPatchFile.stage : Name := .temporary file.relativePath run i .stage

abbrev TransactionalPatchFile.backup : Name := .temporary file.relativePath run i .backup

end Names

section Spec

variable (platform : Platform) (boundary : String → Except String Unit) (umask : Nat → Nat)
  (run i : Nat) (file : TransactionalPatchFile) (f : Listing)

/-- The file is where the transaction expects it, with one name and the text it replaces. -/
def Fits : Prop :=
  boundary file.relativePath = .ok ()
    ∧ ((f (.target file.relativePath) = none ∧ file.existedBefore = false)
      ∨ ∃ e, f (.target file.relativePath) = some e ∧ file.existedBefore = true ∧ e.links = 1
        ∧ e.content = file.before)

def backupOf : Option (Entry String) :=
  match platform with
  | .posix => none
  | .win32 => f (.target file.relativePath)

def modeOf : Nat := (f (.target file.relativePath)).elim (umask 0o644) (·.mode)

/-- The listing once the file is applied. -/
def appliedListing (inode : Nat) : Listing :=
  Function.update
    (Function.update f (.temporary file.relativePath run i .backup) (backupOf platform file f))
    (.target file.relativePath) (some ⟨⟨file.after, modeOf umask file f, 1⟩, inode⟩)

/-- The listing while the file it replaces has only its backup name. -/
def movedListing : Listing :=
  Function.update
    (Function.update f (.temporary file.relativePath run i .backup) (f (.target file.relativePath)))
    (.target file.relativePath) none

def openedAs (inode : Nat) : AppliedPatchFile where
  existedBefore := file.existedBefore
  relativePath := file.relativePath
  descriptor := inode
  originalDescriptor := (backupOf platform file f).map (·.inode)
  stats := ⟨inode, modeOf umask file f, 1⟩
  before := file.before
  after := file.after
  mode := modeOf umask file f
  backupPath := (backupOf platform file f).map fun _ =>
    .temporary file.relativePath run i .backup

/-- What a crash can leave of the file: the target as it was, moved aside, with two names, or
written. -/
structure Between (g : Listing) : Prop where
  others : ∀ n, ¬ Own run i file.relativePath n → g n = f n
  target : g (.target file.relativePath) = f (.target file.relativePath)
    ∨ (platform = .win32 ∧ (f (.target file.relativePath)).isSome
      ∧ g (.target file.relativePath) = none)
    ∨ ∃ e, g (.target file.relativePath) = some e
      ∧ (e.links = 2 ∨ (e.links = 1 ∧ e.content = file.after))

/-- The sites where a failing call leaves the target changed. -/
def Exposed (existed : Bool) : Site → Prop
  | .verifyApplied => True
  | .readApplied => True
  | .closeSource => platform = .posix ∧ existed = true
  | .unlinkStage => platform = .win32 ∨ existed = false
  | .verifyBackup => platform = .win32 ∧ existed = true
  | .readBackup => platform = .win32 ∧ existed = true
  | _ => False

end Spec

/-- An exception of one call, which neither carries a file nor tells of a rollback. -/
def PatchError.plain : PatchError → Prop
  | .error _ => True
  | .io _ => True
  | _ => False

/-- How the call that fails leaves the file: as it was, applied, moved or linked twice. -/
inductive Failed (platform : Platform) (boundary : String → Except String Unit)
    (umask : Nat → Nat) (run i : Nat) (file : TransactionalPatchFile) (φ : Option Call)
    (f : Listing) : PatchError → Disk → Prop
  | stale {e : PatchError} {u : Disk} (hplain : e.plain) (hfits : ¬ Fits boundary file f)
      (hu : u.Shows φ f) : Failed platform boundary umask run i file φ f e u
  | clean {e : PatchError} {u : Disk} {site : Site} (hplain : e.plain) (hφ : φ = some (i, site))
      (hsite : Fits boundary file f → ¬ Exposed platform file.existedBefore site)
      (hu : u.Shows none f) : Failed platform boundary umask run i file φ f e u
  | applied {e : PatchError} {u : Disk} {site : Site} {inode : Nat} (hplain : e.plain)
      (hφ : φ = some (i, site)) (hfits : Fits boundary file f)
      (hsite : Exposed platform file.existedBefore site)
      (hu : u.Shows none (appliedListing platform umask run i file f inode)) :
      Failed platform boundary umask run i file φ f e u
  | moved {e : PatchError} {u : Disk} {site : Site} (hplain : e.plain)
      (hφ : φ = some (i, site)) (hfits : Fits boundary file f)
      (hsite : Exposed platform file.existedBefore site) (hwin : platform = .win32)
      (hexisted : file.existedBefore = true)
      (hu : u.Shows none (movedListing run i file f)) :
      Failed platform boundary umask run i file φ f e u

/-- What a call that returns has done. -/
def Applied (platform : Platform) (boundary : String → Except String Unit) (umask : Nat → Nat)
    (run i : Nat) (file : TransactionalPatchFile) (φ : Option Call) (f : Listing)
    (opened : AppliedPatchFile) (u : Disk) : Prop :=
  Fits boundary file f
    ∧ (∀ site, φ = some (i, site) → ¬ Exposed platform file.existedBefore site)
    ∧ ∃ inode, opened = openedAs platform umask run i file f inode
      ∧ u.Shows φ (appliedListing platform umask run i file f inode)

/-! ## The parts of `applyOne` -/

section Parts

variable {platform : Platform} {file : TransactionalPatchFile} {e : Entry String}

variable (platform) in
/-- The first look at the file that is replaced. -/
theorem checkSource_holds (hd : d.Shows φ f) (hI : I f)
    (hT : f file.target = some e) (hone : e.links = 1) :
    Prog.Holds (checkSource i file (statsOf e) e.inode) d (Leaving I)
      (fun source u => source = statsOf e ∧ e.content = file.before ∧ u.Shows φ f)
      (fun err u => err.plain ∧ ((∃ site, φ = some (i, site)
          ∧ ¬ Exposed platform file.existedBefore site ∧ u.Shows none f)
        ∨ (e.content ≠ file.before ∧ u.Shows φ f))) := by
  unfold checkSource
  refine fstat_step hd hI hT ?_ ?_
  · intro hstrike u hu
    exact ⟨trivial, .inl ⟨_, hstrike, id, hu⟩⟩
  · intro _
    have hsame : ¬ ((statsOf e).links ≠ 1 ∨ ¬ isSameFile (statsOf e) (some (statsOf e)) = true) := by
      simp [statsOf, isSameFile, hone]
    rw [if_neg hsame]
    refine read_step hd hI hT ?_ ?_
    · intro hstrike u hu
      exact ⟨trivial, .inl ⟨_, hstrike, id, hu⟩⟩
    · intro _
      by_cases hcontent : e.content = file.before
      · rw [if_pos hcontent]
        exact Prog.holds_pure ⟨rfl, hcontent, hd⟩
      · rw [if_neg hcontent]
        exact Prog.holds_throw ⟨trivial, .inr ⟨hcontent, hd⟩⟩

variable (platform) in
/-- The second look, right before the rename. -/
theorem recheckSource_holds (hd : d.Shows φ f) (hI : I f)
    (hb : boundary file.relativePath = .ok ()) (hT : f file.target = some e)
    (hone : e.links = 1) (hcontent : e.content = file.before) :
    Prog.Holds (recheckSource boundary i file (statsOf e)) d (Leaving I)
      (fun _ u => u.Shows φ f)
      (fun err u => err.plain ∧ ∃ site, φ = some (i, site)
        ∧ ¬ Exposed platform file.existedBefore site ∧ u.Shows none f) := by
  unfold recheckSource
  refine unchanged_step hd hI hb hT hone rfl rfl hcontent ?_ ?_ ?_
  · intro hstrike u hu
    exact ⟨trivial, _, hstrike, id, hu⟩
  · intro hstrike u hu
    exact ⟨trivial, _, hstrike, id, hu⟩
  · intro _ _
    exact Prog.holds_pure hd

/-- The look at what was applied. -/
theorem checkApplied_holds {staged : Staged} {opened : AppliedPatchFile} (hd : d.Shows φ f)
    (hI : I f) (hb : boundary file.relativePath = .ok ())
    (hT : f file.target = some e) (hone : e.links = 1)
    (hcontent : e.content = file.after) (hstats : staged.stats.inode = e.inode)
    (hdescriptor : staged.descriptor = e.inode) :
    Prog.Holds (checkApplied boundary i file staged opened) d (Leaving I)
      (fun returned u => returned = opened ∧ u.Shows φ f ∧ φ ≠ some (i, .verifyApplied)
        ∧ φ ≠ some (i, .readApplied))
      (fun err u => err.plain
        ∧ (φ = some (i, .verifyApplied) ∨ φ = some (i, .readApplied)) ∧ u.Shows none f) := by
  unfold checkApplied
  refine unchanged_step hd hI hb hT hone hstats hdescriptor hcontent ?_ ?_ ?_
  · intro hstrike u hu
    exact ⟨trivial, .inl hstrike, hu⟩
  · intro hstrike u hu
    exact ⟨trivial, .inr hstrike, hu⟩
  · intro hverify hread
    exact Prog.holds_pure ⟨rfl, hd, hverify, hread⟩

/-- A stage that is not used is removed. -/
theorem discardStage_holds {content : String} {mode inode : Nat} {stats : Stats}
    (hS : f (.temporary P run i .stage) = none)
    (hI : ∀ entry, I (Function.update f (.temporary P run i .stage) entry))
    (hd : d.Shows none (stagedAs (.temporary P run i .stage) content mode inode f)) :
    Prog.Holds (discardStage i ⟨inode, .temporary P run i .stage, stats⟩) d
      (Leaving I) (fun _ u => u.Shows none f) (fun _ _ => False) := by
  unfold discardStage
  refine close_step hd (hI _) nofun ?_
  intro _ u hu
  apply Prog.holds_of_bind_pure
  refine rmForce_present hu (hI _) (Function.update_self _ _ _) rfl ?_ nofun ?_
  · rw [stagedAs, Function.update_idem]
    exact hI none
  · intro _ u' hu'
    rw [stagedAs, Function.update_idem, update_absent hS] at hu'
    exact Prog.holds_pure hu'

/-! ### Listings on the way -/

theorem target_ne_temporary {Q : String} {j : Nat} {role : TemporaryRole} :
    Name.target P ≠ .temporary Q run j role := nofun

theorem not_own_ne {n : Name} (h : ¬ Own run i P n) :
    n ≠ .target P ∧ ∀ role, n ≠ .temporary P run i role :=
  ⟨fun heq => h (.inl heq), fun role heq => h (.inr ⟨role, heq⟩)⟩

variable {g : Listing}

theorem Between.temporary (h : Between platform run i file f g) (role : TemporaryRole)
    (entry : Option (Entry String)) :
    Between platform run i file f
      (Function.update g (.temporary file.relativePath run i role) entry) where
  others n hn := by
    rw [Function.update_of_ne ((not_own_ne hn).2 role)]
    exact h.others n hn
  target := by
    rw [Function.update_of_ne target_ne_temporary]
    exact h.target

theorem Between.start : Between platform run i file f f := ⟨fun _ _ => rfl, .inl rfl⟩

/-- The target may be the new file. -/
theorem Between.written (h : Between platform run i file f g) {entry : Entry String}
    (hentry : entry.links = 2 ∨ (entry.links = 1 ∧ entry.content = file.after)) :
    Between platform run i file f
      (Function.update g file.target (some entry)) where
  others n hn := by
    rw [Function.update_of_ne (not_own_ne hn).1]
    exact h.others n hn
  target := .inr (.inr ⟨entry, Function.update_self _ _ _, hentry⟩)

theorem Between.vacated (h : Between platform run i file f g) (hwin : platform = .win32)
    (hT : (f file.target).isSome) :
    Between platform run i file f (Function.update g file.target none) where
  others n hn := by
    rw [Function.update_of_ne (not_own_ne hn).1]
    exact h.others n hn
  target := .inr (.inl ⟨hwin, hT, Function.update_self _ _ _⟩)

theorem between_applied (inode : Nat) :
    Between platform run i file f (appliedListing platform umask run i file f inode) :=
  (Between.start.temporary .backup _).written (.inr ⟨rfl, rfl⟩)

def linkedListing (run i : Nat) (file : TransactionalPatchFile) (mode inode : Nat)
    (g : Listing) : Listing :=
  Function.update (Function.update
      (stagedAs (.temporary file.relativePath run i .stage) file.after mode inode g)
      (.temporary file.relativePath run i .stage) (some ⟨⟨file.after, mode, 2⟩, inode⟩))
    (.target file.relativePath) (some ⟨⟨file.after, mode, 2⟩, inode⟩)

theorem Between.linked (h : Between platform run i file f g) (mode inode : Nat) :
    Between platform run i file f (linkedListing run i file mode inode g) :=
  ((h.temporary .stage _).temporary .stage _).written (.inl rfl)

variable (umask) in
theorem appliedListing_linked {g : Listing} (inode : Nat)
    (hS : f (file.stage run i) = none)
    (hg : g = Function.update f (file.backup run i) (backupOf platform file f)
      ∨ g = Function.update (Function.update f (file.backup run i)
        (backupOf platform file f)) file.target none) :
    Function.update (Function.update (linkedListing run i file (modeOf umask file f) inode g)
        (file.stage run i) none) file.target
        (some ⟨⟨file.after, modeOf umask file f, 1⟩, inode⟩)
      = appliedListing platform umask run i file f inode := by
  funext n
  unfold appliedListing
  by_cases hT : n = file.target
  · rw [hT, Function.update_self, Function.update_self]
  · rw [Function.update_of_ne hT, Function.update_of_ne hT]
    have hgn : g n = Function.update f (file.backup run i)
        (backupOf platform file f) n := by
      rcases hg with rfl | rfl
      · rfl
      · rw [Function.update_of_ne hT]
    by_cases hnS : n = file.stage run i
    · simp [hnS, hS]
    · rw [Function.update_of_ne hnS, linkedListing, Function.update_of_ne hT,
        Function.update_of_ne hnS, stagedAs, Function.update_of_ne hnS, hgn]

/-- The calls behind which the file stands applied. -/
theorem exposed_cases {existed : Bool} {site : Site} (h : Exposed platform existed site) :
    site = .verifyApplied ∨ site = .readApplied
      ∨ (site = .closeSource ∧ platform = .posix ∧ existed = true)
      ∨ (site = .unlinkStage ∧ (platform = .win32 ∨ existed = false))
      ∨ (site = .verifyBackup ∧ platform = .win32 ∧ existed = true)
      ∨ (site = .readBackup ∧ platform = .win32 ∧ existed = true) := by
  cases site <;> first | exact h.elim | skip
  · exact .inl rfl
  · exact .inr (.inl rfl)
  · exact .inr (.inr (.inl ⟨rfl, h⟩))
  · exact .inr (.inr (.inr (.inl ⟨rfl, h⟩)))
  · exact .inr (.inr (.inr (.inr (.inl ⟨rfl, h⟩))))
  · exact .inr (.inr (.inr (.inr (.inr ⟨rfl, h⟩))))

/-! ### A new file -/

/-- **A file that was not there** is linked from its stage. -/
theorem applyNew_holds (hd : d.Shows φ f) (hb : boundary file.relativePath = .ok ())
    (hfresh : ∀ role, f (.temporary file.relativePath run i role) = none)
    (hI : ∀ g, Between platform run i file f g → I g)
    (hT : f file.target = none) (hexisted : file.existedBefore = false) :
    Prog.Holds (applyNew boundary umask run i file) d (Leaving I)
      (Applied platform boundary umask run i file φ f)
      (Failed platform boundary umask run i file φ f) := by
  have hfits : Fits boundary file f := ⟨hb, .inl ⟨hT, hexisted⟩⟩
  have hbackup : backupOf platform file f = none := by cases platform <;> simp [backupOf, hT]
  have hmode : modeOf umask file f = umask 0o644 := by simp [modeOf, hT]
  have hIstage : ∀ entry,
      I (Function.update f (file.stage run i) entry) :=
    fun entry => hI _ (Between.start.temporary .stage entry)
  have hopened : ∀ inode, appliedFile file ⟨inode, file.stage run i,
      ⟨inode, umask 0o644, 1⟩⟩ none none = openedAs platform umask run i file f inode := by
    intro inode
    simp [appliedFile, openedAs, hbackup, hmode]
  have hkept : f = Function.update f (file.backup run i)
      (backupOf platform file f) := by rw [hbackup, update_absent (hfresh .backup)]
  unfold applyNew
  refine Prog.holds_bind (Prog.Holds.mono (openStage_holds hd (hfresh .stage) hIstage)
    (fun _ _ _ h => h) (fun _ _ h => h) ?_) ?_
  · rintro e u ⟨call, hφ, rfl, hu⟩
    exact .clean trivial hφ (fun _ => id) hu
  · rintro staged u ⟨inode, rfl, hu⟩
    have hSentry : stagedAs (file.stage run i) file.after (umask 0o644)
        inode f (file.stage run i)
        = some ⟨⟨file.after, umask 0o644, 1⟩, inode⟩ := Function.update_self _ _ _
    have hTentry : stagedAs (file.stage run i) file.after (umask 0o644)
        inode f file.target = none := by
      rw [stagedAs, Function.update_of_ne target_ne_temporary, hT]
    have hpair : Pair (linkedListing run i file (umask 0o644) inode f) _ _ _ :=
      pair_of_link hu hSentry rfl hTentry
    have happlied := appliedListing_linked umask inode (hfresh .stage) (.inl hkept)
    rw [hmode] at happlied
    have hIlinked := hI _ (Between.start.linked (umask 0o644) inode)
    have hIapplied : I (appliedListing platform umask run i file f inode) :=
      hI _ (between_applied inode)
    refine Prog.holds_bind (M := fun _ u =>
      u.Shows φ (appliedListing platform umask run i file f inode) ∧ φ ≠ some (i, .unlinkStage)) ?_ ?_
    · -- the stage is removed when the commit fails, and with it one of two names it may have
      refine Prog.holds_onError (Q := fun e u => e.plain ∧ ((∃ site, φ = some (i, site)
        ∧ ¬ Exposed platform file.existedBefore site
        ∧ u.Shows none (stagedAs (file.stage run i) file.after (umask 0o644) inode f))
        ∨ (φ = some (i, .unlinkStage)
          ∧ u.Shows none (linkedListing run i file (umask 0o644) inode f)))) ?_ ?_
      · refine verify_absent hu (hIstage _) hb hTentry ?_ ?_
        · intro hstrike u' hu'
          exact ⟨trivial, .inl ⟨_, hstrike, id, hu'⟩⟩
        · intro _
          refine link_step hu (hIstage _) hSentry rfl hTentry hIlinked ?_ ?_
          · intro hstrike u' hu'
            exact ⟨trivial, .inl ⟨_, hstrike, id, hu'⟩⟩
          · intro _ u' hu'
            apply Prog.holds_of_bind_pure
            refine unlink_pair_step hu' hIlinked hpair ((congrArg I happlied).mpr hIapplied) ?_ ?_
            · intro hstrike u'' hu''
              exact ⟨trivial, .inr ⟨hstrike, hu''⟩⟩
            · intro hunlink u'' hu''
              exact Prog.holds_pure ⟨(congrArg (u''.Shows φ) happlied).mp hu'', hunlink⟩
      · rintro e u' ⟨hplain, ⟨site, hφ, hsite, hu'⟩ | ⟨hφ, hu'⟩⟩
        · refine (discardStage_holds (hfresh .stage) hIstage hu').imp ?_ ?_
          · intro _ v hv
            exact .clean hplain hφ (fun _ => hsite) hv
          · intro _ _ hfalse
            exact hfalse.elim
        · refine close_step hu' hIlinked nofun ?_
          intro _ u'' hu''
          apply Prog.holds_of_bind_pure
          refine rmForce_pair hu'' hIlinked hpair ((congrArg I happlied).mpr hIapplied)
            nofun ?_
          intro _ v hv
          exact Prog.holds_pure (.applied hplain hφ hfits (.inr hexisted)
            ((congrArg (v.Shows none) happlied).mp hv))
    · rintro _ v ⟨hv, hunlink⟩
      have hTv : appliedListing platform umask run i file f inode file.target
          = some ⟨⟨file.after, modeOf umask file f, 1⟩, inode⟩ := Function.update_self _ _ _
      refine (checkApplied_holds hv (hI _ (between_applied inode)) hb hTv rfl rfl rfl rfl).imp ?_ ?_
      · rintro opened w ⟨rfl, hw, hverify, hread⟩
        refine ⟨hfits, ?_, inode, hopened inode, hw⟩
        rintro site hφ hsite
        rcases exposed_cases hsite with rfl | rfl | ⟨-, -, h⟩ | ⟨rfl, -⟩ | ⟨-, -, h⟩ | ⟨-, -, h⟩
        · exact hverify hφ
        · exact hread hφ
        · cases hexisted.symm.trans h
        · exact hunlink hφ
        · cases hexisted.symm.trans h
        · cases hexisted.symm.trans h
      · rintro e w ⟨hplain, hφ, hw⟩
        rcases hφ with hφ | hφ
        · exact .applied hplain hφ hfits trivial hw
        · exact .applied hplain hφ hfits trivial hw

/-! ### A file that is replaced -/

theorem Fits.isSome (h : Fits boundary file f) (hexisted : file.existedBefore = true) :
    (f file.target).isSome := by
  rcases h.2 with ⟨-, hnew⟩ | ⟨e, he, -⟩
  · exact nomatch hexisted.symm.trans hnew
  · rw [he]
    rfl

theorem not_fits (hT : f file.target = some e) (hne : e.content ≠ file.before) :
    ¬ Fits boundary file f := by
  rintro ⟨-, ⟨hnone, -⟩ | ⟨e', he', -, -, hcontent⟩⟩
  · rw [hT] at hnone
    cases hnone
  · rw [hT] at he'
    cases he'
    exact hne hcontent

/-- The descriptor is closed, whatever happened before. -/
theorem closeSource_holds {descriptor : Nat} {err : PatchError}
    (hI : ∀ g, Between platform run i file f g → I g)
    (h : Failed platform boundary umask run i file φ f err d) :
    Prog.Holds (closeSync i .closeSource descriptor) d (Leaving I)
      (fun _ => Failed platform boundary umask run i file φ f err)
      (Failed platform boundary umask run i file φ f) := by
  apply Prog.holds_of_bind_pure
  cases h with
  | stale hplain hfits hu =>
    refine close_step hu (hI _ .start) ?_ ?_
    · intro hstrike v hv
      exact .clean trivial hstrike (fun hfit => absurd hfit hfits) hv
    · intro _ v hv
      exact Prog.holds_pure (.stale hplain hfits hv)
  | clean hplain hφ hsite hu =>
    refine close_step hu (hI _ .start) nofun ?_
    intro _ v hv
    exact Prog.holds_pure (.clean hplain hφ hsite hv)
  | applied hplain hφ hfits hsite hu =>
    refine close_step hu (hI _ (between_applied _)) nofun ?_
    intro _ v hv
    exact Prog.holds_pure (.applied hplain hφ hfits hsite hv)
  | moved hplain hφ hfits hsite hwin hexisted hu =>
    have hmoved : Between platform run i file f (movedListing run i file f) :=
      (Between.start.temporary .backup _).vacated hwin (hfits.isSome hexisted)
    refine close_step hu (hI _ hmoved) nofun ?_
    intro _ v hv
    exact Prog.holds_pure (.moved hplain hφ hfits hsite hwin hexisted hv)

variable (umask) in
theorem appliedListing_renamed (inode : Nat)
    (hfresh : ∀ role, f (.temporary file.relativePath run i role) = none) :
    Function.update (Function.update
        (stagedAs (file.stage run i) file.after (modeOf umask file f) inode
          f) file.target (some ⟨⟨file.after, modeOf umask file f, 1⟩, inode⟩))
        (file.stage run i) none
      = appliedListing .posix umask run i file f inode := by
  funext n
  rw [appliedListing, backupOf, update_absent (hfresh .backup)]
  by_cases hS : n = file.stage run i
  · simp [hS, hfresh]
  · rw [Function.update_of_ne hS]
    by_cases hT : n = file.target
    · rw [hT, Function.update_self, Function.update_self]
    · rw [Function.update_of_ne hT, Function.update_of_ne hT, stagedAs, Function.update_of_ne hS]

/-- **A file that is replaced by a rename.** -/
theorem applyExistingPosix_holds (hd : d.Shows φ f) (hb : boundary file.relativePath = .ok ())
    (hfresh : ∀ role, f (.temporary file.relativePath run i role) = none)
    (hI : ∀ g, Between .posix run i file f g → I g)
    (hT : f file.target = some e) (hone : e.links = 1)
    (hexisted : file.existedBefore = true) :
    Prog.Holds (applyExistingPosix boundary umask run i file (statsOf e) e.inode) d
      (Leaving I) (Applied .posix boundary umask run i file φ f)
      (Failed .posix boundary umask run i file φ f) := by
  have hmode : modeOf umask file f = e.mode := by simp [modeOf, hT]
  have hIf : I f := hI f .start
  have hIstage : ∀ entry,
      I (Function.update f (file.stage run i) entry) :=
    fun entry => hI _ (Between.start.temporary .stage entry)
  have hIapplied : ∀ inode, I (appliedListing .posix umask run i file f inode) :=
    fun inode => hI _ (between_applied inode)
  have hopened : ∀ inode, appliedFile file ⟨inode, file.stage run i,
      ⟨inode, e.mode, 1⟩⟩ (some (statsOf e).mode) none
      = openedAs .posix umask run i file f inode := by
    intro inode
    simp [appliedFile, openedAs, backupOf, hmode, statsOf]
  have hfits : e.content = file.before → Fits boundary file f :=
    fun hcontent => ⟨hb, .inr ⟨e, hT, hexisted, hone, hcontent⟩⟩
  refine Prog.holds_ensure
    (M := fun opened u => Fits boundary file f ∧ φ ≠ some (i, .verifyApplied)
      ∧ φ ≠ some (i, .readApplied) ∧ ∃ inode, opened = openedAs .posix umask run i file f inode
        ∧ u.Shows φ (appliedListing .posix umask run i file f inode))
    (Q := Failed .posix boundary umask run i file φ f) ?_ ?_ ?_
  -- the calls in their order: each says what it leaves when it fails, and goes on to the next
  · refine Prog.holds_bind ((checkSource_holds .posix hd hIf hT hone).imp_fail ?_) ?_
    · rintro err u ⟨hplain, ⟨site, hφ, hsite, hu⟩ | ⟨hne, hu⟩⟩
      · exact .clean hplain hφ (fun _ => hsite) hu
      · exact .stale hplain (not_fits hT hne) hu
    · rintro source u ⟨rfl, hcontent, hu⟩
      refine Prog.holds_bind ((openStage_holds hu (hfresh .stage) hIstage).imp_fail ?_) ?_
      · rintro err v ⟨call, hφ, rfl, hv⟩
        exact .clean trivial hφ (fun _ => id) hv
      · rintro staged v ⟨inode, rfl, hv⟩
        have hTv : stagedAs (file.stage run i) file.after e.mode inode f
            file.target = some e := by
          rw [stagedAs, Function.update_of_ne target_ne_temporary, hT]
        have hSv : stagedAs (file.stage run i) file.after e.mode inode f
            (file.stage run i)
            = some ⟨⟨file.after, e.mode, 1⟩, inode⟩ := Function.update_self _ _ _
        have happlied := appliedListing_renamed umask inode hfresh
        rw [hmode] at happlied
        refine Prog.holds_bind (M := fun _ w =>
          w.Shows φ (appliedListing .posix umask run i file f inode)) ?_ ?_
        · refine Prog.holds_onError (Q := fun err w => err.plain ∧ ∃ site, φ = some (i, site)
            ∧ ¬ Exposed .posix file.existedBefore site ∧ w.Shows none
              (stagedAs (file.stage run i) file.after e.mode inode f)) ?_ ?_
          · refine Prog.holds_bind (recheckSource_holds .posix hv (hIstage _) hb hTv hone hcontent) ?_
            intro _ w hw
            apply Prog.holds_of_bind_pure
            refine rename_step hw (hIstage _) target_ne_temporary.symm hSv ?_ ((congrArg I happlied).mpr (hIapplied _))
              ?_ ?_
            · intro e' he'
              rw [hTv] at he'
              cases he'
              exact hone
            · intro hstrike w' hw'
              exact ⟨trivial, _, hstrike, id, hw'⟩
            · intro _ w' hw'
              exact Prog.holds_pure ((congrArg (w'.Shows φ) happlied).mp hw')
          · rintro err w ⟨hplain, site, hφ, hsite, hw⟩
            refine (discardStage_holds (hfresh .stage) hIstage hw).imp ?_ ?_
            · intro _ w' hw'
              exact .clean hplain hφ (fun _ => hsite) hw'
            · intro _ _ hfalse
              exact hfalse.elim
        · intro _ w hw
          have hTw : appliedListing .posix umask run i file f inode file.target
              = some ⟨⟨file.after, modeOf umask file f, 1⟩, inode⟩ := Function.update_self _ _ _
          refine (checkApplied_holds hw (hIapplied _) hb hTw rfl rfl rfl rfl).imp ?_ ?_
          · rintro opened x ⟨rfl, hx, hverify, hread⟩
            exact ⟨hfits hcontent, hverify, hread, inode, hopened inode, hx⟩
          · rintro err x ⟨hplain, hφ | hφ, hx⟩
            · exact .applied hplain hφ (hfits hcontent) trivial hx
            · exact .applied hplain hφ (hfits hcontent) trivial hx
  · rintro opened u ⟨hfit, hverify, hread, inode, rfl, hu⟩
    apply Prog.holds_of_bind_pure
    refine close_step hu (hIapplied _) ?_ ?_
    · intro hstrike v hv
      exact .applied trivial hstrike hfit ⟨rfl, hexisted⟩ hv
    · intro hclose v hv
      refine Prog.holds_pure ⟨hfit, ?_, inode, rfl, hv⟩
      rintro site hφ hsite
      rcases exposed_cases hsite with rfl | rfl | ⟨rfl, -⟩ | ⟨-, h | h⟩ | ⟨-, h, -⟩ | ⟨-, h, -⟩
      · exact hverify hφ
      · exact hread hφ
      · exact hclose hφ
      · cases h
      · cases hexisted.symm.trans h
      · cases h
      · cases h
  · intro err u hfailed
    exact closeSource_holds hI hfailed

/-! ### A file that is moved aside first -/

def asideListing (run i : Nat) (file : TransactionalPatchFile) (e : Entry String)
    (g : Listing) : Listing :=
  Function.update (Function.update g (.temporary file.relativePath run i .backup) (some e))
    (.target file.relativePath) none

theorem asideListing_back {x y : Option (Entry String)} (hone : e.links = 1)
    (hT : g file.target = some e) (hB : g (file.backup run i) = none) :
    Function.update (Function.update (Function.update (Function.update
        (asideListing run i file e g) (file.backup run i) x)
        file.target y) (file.backup run i) none)
        file.target (some (e.counting 1)) = g := by
  funext n
  by_cases hnT : n = file.target
  · rw [hnT, Function.update_self, hT, ← hone]
  · rw [Function.update_of_ne hnT]
    by_cases hnB : n = file.backup run i
    · rw [hnB, Function.update_self, hB]
    · rw [Function.update_of_ne hnB, Function.update_of_ne hnT, Function.update_of_ne hnB,
        asideListing, Function.update_of_ne hnT, Function.update_of_ne hnB]

/-- A file that was moved aside goes back when the new one cannot be linked. -/
theorem restoreVacated_holds (hb : boundary file.relativePath = .ok ()) (hone : e.links = 1)
    (hT : g file.target = some e) (hB : g (file.backup run i) = none)
    (hI : ∀ h, Between .win32 run i file f h → I h) (hbetween : Between .win32 run i file f g)
    (haside : Between .win32 run i file f (asideListing run i file e g))
    (hd : d.Shows none (asideListing run i file e g)) :
    Prog.Holds (restoreVacated boundary i .verifyVacated .linkBackup .unlinkBackup
        file.target (file.backup run i)) d (Leaving I)
      (fun _ u => u.Shows none g) (fun _ _ => False) := by
  have hTnone : asideListing run i file e g file.target = none :=
    Function.update_self _ _ _
  have hBsome : asideListing run i file e g (file.backup run i)
      = some e := by
    rw [asideListing, Function.update_of_ne target_ne_temporary.symm, Function.update_self]
  unfold restoreVacated
  refine verify_absent hd (hI _ haside) hb hTnone nofun ?_
  intro _
  refine link_step hd (hI _ haside) hBsome hone hTnone
    (hI _ ((haside.temporary .backup _).written (.inl rfl))) nofun ?_
  intro _ u hu
  have hpair := pair_of_link hd hBsome hone hTnone
  have hback := asideListing_back (x := some (e.counting 2))
    (y := some (e.counting 2)) hone hT hB
  apply Prog.holds_of_bind_pure
  refine unlink_pair_step hu (hI _ ((haside.temporary .backup _).written (.inl rfl))) hpair
    ((congrArg I hback).mpr (hI _ hbetween)) nofun ?_
  intro _ v hv
  exact Prog.holds_pure ((congrArg (v.Shows none) hback).mp hv)

/-- How a replacement that fails leaves the file. -/
inductive ReplaceFailed (run i : Nat) (file : TransactionalPatchFile) (φ : Option Call)
    (e : Entry String) (mode inode : Nat) (g : Listing) (u : Disk) : Prop
  | clean {site : Site} (hφ : φ = some (i, site))
      (hsite : ¬ Exposed .win32 file.existedBefore site) (hu : u.Shows none g)
  | aside (hφ : φ = some (i, .verifyBackup) ∨ φ = some (i, .readBackup))
      (hu : u.Shows none (asideListing run i file e g))
  | linked (hφ : φ = some (i, .unlinkStage))
      (hpair : Pair (linkedListing run i file mode inode (asideListing run i file e g))
        (.temporary file.relativePath run i .stage) (.target file.relativePath)
        ⟨⟨file.after, mode, 2⟩, inode⟩)
      (hu : u.Shows none (linkedListing run i file mode inode (asideListing run i file e g)))

/-- The file is moved aside, then the new one is linked to its name. -/
theorem replaceExistingWindows_holds {mode inode : Nat} (hd : d.Shows φ g)
    (hb : boundary file.relativePath = .ok ()) (hone : e.links = 1)
    (hcontent : e.content = file.before) (hT : g file.target = some e)
    (hB : g (file.backup run i) = none)
    (hS : g (file.stage run i) = some ⟨⟨file.after, mode, 1⟩, inode⟩)
    (hI : ∀ h, Between .win32 run i file f h → I h) (hfT : (f file.target).isSome)
    (hbetween : Between .win32 run i file f g) :
    Prog.Holds (replaceExistingWindows boundary i file.target (file.backup run i) (file.stage run i)
        (statsOf e) file.before) d (Leaving I)
      (fun _ u => u.Shows φ (Function.update (Function.update
          (linkedListing run i file mode inode (asideListing run i file e g))
          (file.stage run i) none) file.target
          (some ⟨⟨file.after, mode, 1⟩, inode⟩))
        ∧ φ ≠ some (i, .verifyBackup) ∧ φ ≠ some (i, .readBackup) ∧ φ ≠ some (i, .unlinkStage))
      (fun err u => err.plain ∧ ReplaceFailed run i file φ e mode inode g u) := by
  have haside : Between .win32 run i file f (asideListing run i file e g) :=
    (hbetween.temporary .backup _).vacated rfl hfT
  have hlinked : Between .win32 run i file f
      (linkedListing run i file mode inode (asideListing run i file e g)) :=
    haside.linked mode inode
  have hBsome : asideListing run i file e g (file.backup run i)
      = some e := by
    rw [asideListing, Function.update_of_ne target_ne_temporary.symm, Function.update_self]
  have hTnone : asideListing run i file e g file.target = none :=
    Function.update_self _ _ _
  have hSaside : asideListing run i file e g (file.stage run i)
      = some ⟨⟨file.after, mode, 1⟩, inode⟩ := by
    rw [asideListing, Function.update_of_ne target_ne_temporary.symm]
    simp [hS]
  have hstaged : stagedAs (file.stage run i) file.after mode inode
      (asideListing run i file e g) = asideListing run i file e g := by
    rw [stagedAs, ← hSaside, Function.update_eq_self]
  unfold replaceExistingWindows
  refine rename_step hd (hI _ hbetween) nofun hT (fun e' he' => ?_) (hI _ haside) ?_ ?_
  · rw [hB] at he'
    cases he'
  · intro hstrike u hu
    exact ⟨trivial, .clean hstrike id hu⟩
  · intro _ u hu
    refine unchanged_step hu (hI _ haside) hb hBsome hone rfl rfl hcontent ?_ ?_ ?_
    · intro hstrike v hv
      exact ⟨trivial, .aside (.inl hstrike) hv⟩
    · intro hstrike v hv
      exact ⟨trivial, .aside (.inr hstrike) hv⟩
    · intro hverify hread
      have hlisting : linkedListing run i file mode inode (asideListing run i file e g)
          = Function.update (Function.update (asideListing run i file e g)
            (file.stage run i) (some ⟨⟨file.after, mode, 2⟩, inode⟩))
            file.target (some ⟨⟨file.after, mode, 2⟩, inode⟩) := by
        rw [linkedListing, hstaged]
      have hpair := pair_of_link hu hSaside rfl hTnone
      refine Prog.holds_bind (Prog.holds_attempt (M := fun _ w => w.Shows φ
          (Function.update (Function.update
            (linkedListing run i file mode inode (asideListing run i file e g))
            (file.stage run i) none) file.target
            (some ⟨⟨file.after, mode, 1⟩, inode⟩)) ∧ φ ≠ some (i, .unlinkStage))
        (Q := fun err w => err.plain
          ∧ ((φ = some (i, .linkStage) ∧ w.Shows none (asideListing run i file e g))
            ∨ (φ = some (i, .unlinkStage) ∧ w.Shows none
              (linkedListing run i file mode inode (asideListing run i file e g))))) ?_) ?_
      · rw [hlisting] at hlinked ⊢
        refine link_step hu (hI _ haside) hSaside rfl hTnone (hI _ hlinked) ?_ ?_
        · intro hstrike w hw
          exact ⟨trivial, .inl ⟨hstrike, hw⟩⟩
        · intro _ w hw
          apply Prog.holds_of_bind_pure
          refine unlink_pair_step hw (hI _ hlinked) hpair
            (hI _ ((hlinked.temporary .stage _).written (.inr ⟨rfl, rfl⟩))) ?_ ?_
          · intro hstrike x hx
            exact ⟨trivial, .inr ⟨hstrike, hx⟩⟩
          · intro hunlink x hx
            exact Prog.holds_pure ⟨hx, hunlink⟩
      · rintro result w ⟨hok, herror⟩
        cases result with
        | ok _ =>
          obtain ⟨hw, hunlink⟩ := hok () rfl
          exact Prog.holds_pure ⟨hw, hverify, hread, hunlink⟩
        | error err =>
          obtain ⟨hplain, ⟨hφ, hw⟩ | ⟨hφ, hw⟩⟩ := herror err rfl
          · -- the stage was not linked: the original goes back, and nothing is left beside it
            refine Prog.holds_bind ((restoreVacated_holds hb hone hT hB hI hbetween haside
              hw).imp_fail fun _ _ hfalse => hfalse.elim) ?_
            intro _ x hx
            refine verify_absent hx (hI _ hbetween) hb hB nofun ?_
            intro _
            exact Prog.holds_throw ⟨hplain, .clean hφ id hx⟩
          · -- the target still counts two names, so looking at it throws
            refine Prog.holds_bind (M := fun _ _ => False) ?_ (fun _ _ hfalse => hfalse.elim)
            refine verify_linked hw (hI _ hlinked) hb
              (Function.update_self _ _ _) (show (2 : Nat) ≠ 1 by decide)
              nofun ?_
            intro _
            exact ⟨trivial, .linked hφ (hlisting ▸ hpair) hw⟩

/-- **A file that is moved aside first.** -/
theorem applyExistingWindows_holds (hd : d.Shows φ f) (hb : boundary file.relativePath = .ok ())
    (hfresh : ∀ role, f (.temporary file.relativePath run i role) = none)
    (hI : ∀ g, Between .win32 run i file f g → I g)
    (hT : f file.target = some e) (hone : e.links = 1)
    (hexisted : file.existedBefore = true) :
    Prog.Holds (applyExistingWindows boundary umask run i file (statsOf e) e.inode) d
      (Leaving I) (Applied .win32 boundary umask run i file φ f)
      (Failed .win32 boundary umask run i file φ f) := by
  have hmode : modeOf umask file f = e.mode := by simp [modeOf, hT]
  have hbackup : backupOf .win32 file f = some e := hT
  have hIf : I f := hI f .start
  have hIstage : ∀ entry,
      I (Function.update f (file.stage run i) entry) :=
    fun entry => hI _ (Between.start.temporary .stage entry)
  have hIapplied : ∀ inode, I (appliedListing .win32 umask run i file f inode) :=
    fun inode => hI _ (between_applied inode)
  have hopened : ∀ inode, appliedFile file ⟨inode, file.stage run i,
      ⟨inode, e.mode, 1⟩⟩ (some e.mode)
      (some (e.inode, file.backup run i))
      = openedAs .win32 umask run i file f inode := by
    intro inode
    simp [appliedFile, openedAs, hbackup, hmode]
  have hfits : e.content = file.before → Fits boundary file f :=
    fun hcontent => ⟨hb, .inr ⟨e, hT, hexisted, hone, hcontent⟩⟩
  -- the listing while the stage waits, and what is left of it when the stage is removed
  have hstagedT : ∀ inode, stagedAs (file.stage run i) file.after e.mode
      inode f file.target = some e := by
    intro inode
    rw [stagedAs, Function.update_of_ne target_ne_temporary, hT]
  have hmoved : ∀ inode, Function.update (asideListing run i file e
      (stagedAs (file.stage run i) file.after e.mode inode f))
      (file.stage run i) none = movedListing run i file f := by
    intro inode
    funext n
    rw [movedListing, hT]
    by_cases hS : n = file.stage run i
    · simp [hS, hfresh]
    · simp only [asideListing, stagedAs, Function.update, hS, dite_false]
  have happlied : ∀ inode, Function.update (Function.update
      (linkedListing run i file e.mode inode (asideListing run i file e
        (stagedAs (file.stage run i) file.after e.mode inode f)))
      (file.stage run i) none) file.target
      (some ⟨⟨file.after, e.mode, 1⟩, inode⟩)
      = appliedListing .win32 umask run i file f inode := by
    intro inode
    rw [← appliedListing_linked umask inode (hfresh .stage) (.inr rfl), hmode, hbackup]
    funext n
    by_cases hTn : n = file.target
    · rw [hTn, Function.update_self, Function.update_self]
    · rw [Function.update_of_ne hTn, Function.update_of_ne hTn]
      by_cases hS : n = file.stage run i
      · rw [hS, Function.update_self, Function.update_self]
      · simp only [linkedListing, asideListing, stagedAs, Function.update, hS, hTn, dite_false]
  refine Prog.holds_bind (M := fun committed u => Fits boundary file f
    ∧ φ ≠ some (i, .verifyBackup) ∧ φ ≠ some (i, .readBackup) ∧ φ ≠ some (i, .unlinkStage)
    ∧ ∃ inode, committed
        = (⟨inode, file.stage run i, ⟨inode, e.mode, 1⟩⟩, e.mode)
      ∧ u.Shows φ (appliedListing .win32 umask run i file f inode)) ?_ ?_
  · refine Prog.holds_onError (Q := fun err u => Failed .win32 boundary umask run i file φ f err u) ?_ ?_
    · refine Prog.holds_bind ((checkSource_holds .win32 hd hIf hT hone).imp_fail ?_) ?_
      · rintro err u ⟨hplain, ⟨site, hφ, hsite, hu⟩ | ⟨hne, hu⟩⟩
        · exact .clean hplain hφ (fun _ => hsite) hu
        · exact .stale hplain (not_fits hT hne) hu
      · rintro source u ⟨rfl, hcontent, hu⟩
        refine Prog.holds_bind ((openStage_holds hu (hfresh .stage) hIstage).imp_fail ?_) ?_
        · rintro err v ⟨call, hφ, rfl, hv⟩
          exact .clean trivial hφ (fun _ => id) hv
        · rintro staged v ⟨inode, rfl, hv⟩
          have hBv : stagedAs (file.stage run i) file.after e.mode inode f
              (file.backup run i) = none := by simp [stagedAs, hfresh]
          have hbetween : Between .win32 run i file f
              (stagedAs (file.stage run i) file.after e.mode inode f) :=
            Between.start.temporary .stage _
          have haside : Between .win32 run i file f (asideListing run i file e
              (stagedAs (file.stage run i) file.after e.mode inode f)) :=
            (hbetween.temporary .backup _).vacated rfl (by rw [hT]; rfl)
          refine Prog.holds_bind (M := fun _ w =>
            w.Shows φ (appliedListing .win32 umask run i file f inode)
              ∧ φ ≠ some (i, .verifyBackup) ∧ φ ≠ some (i, .readBackup)
              ∧ φ ≠ some (i, .unlinkStage)) ?_ ?_
          · refine Prog.holds_onError (Q := fun err w => err.plain
              ∧ ReplaceFailed run i file φ e e.mode inode (stagedAs
                (file.stage run i) file.after e.mode inode f) w) ?_ ?_
            · refine Prog.holds_bind ((recheckSource_holds .win32 hv (hIstage _) hb
                (hstagedT inode) hone hcontent).imp_fail ?_) ?_
              · rintro err w ⟨hplain, site, hφ, hsite, hw⟩
                exact ⟨hplain, .clean hφ hsite hw⟩
              · intro _ w hw
                refine (replaceExistingWindows_holds hw hb hone hcontent (hstagedT inode) hBv
                  (Function.update_self _ _ _) hI (by rw [hT]; rfl) hbetween).imp ?_ (fun _ _ h => h)
                rintro _ x ⟨hx, hsites⟩
                exact ⟨(congrArg (x.Shows φ) (happlied inode)).mp hx, hsites⟩
            · rintro err w ⟨hplain, hfailed⟩
              cases hfailed with
              | clean hφ hsite hw =>
                refine (discardStage_holds (hfresh .stage) hIstage hw).imp ?_
                  fun _ _ hfalse => hfalse.elim
                intro _ x hx
                exact .clean hplain hφ (fun _ => hsite) hx
              | aside hφ hw =>
                refine close_step hw (hI _ haside) nofun ?_
                intro _ x hx
                have hSx : asideListing run i file e (stagedAs
                    (file.stage run i) file.after e.mode inode f)
                    (file.stage run i)
                    = some ⟨⟨file.after, e.mode, 1⟩, inode⟩ := by simp [asideListing, stagedAs]
                apply Prog.holds_of_bind_pure
                refine rmForce_present hx (hI _ haside) hSx rfl (hI _ (haside.temporary .stage _))
                  nofun ?_
                intro _ y hy
                have hy := (congrArg (y.Shows none) (hmoved inode)).mp hy
                rcases hφ with hφ | hφ
                · exact Prog.holds_pure (.moved hplain hφ (hfits hcontent) ⟨rfl, hexisted⟩ rfl
                    hexisted hy)
                · exact Prog.holds_pure (.moved hplain hφ (hfits hcontent) ⟨rfl, hexisted⟩ rfl
                    hexisted hy)
              | linked hφ hpair hw =>
                refine close_step hw (hI _ (haside.linked _ _)) nofun ?_
                intro _ x hx
                apply Prog.holds_of_bind_pure
                refine rmForce_pair hx (hI _ (haside.linked _ _)) hpair
                  ((congrArg I (happlied inode)).mpr (hIapplied inode))
                  nofun ?_
                intro _ y hy
                exact Prog.holds_pure (.applied hplain hφ (hfits hcontent) (.inl rfl)
                  ((congrArg (y.Shows none) (happlied inode)).mp hy))
          · rintro _ w ⟨hw, hverify, hread, hunlink⟩
            exact Prog.holds_pure ⟨hfits hcontent, hverify, hread, hunlink, inode, rfl, hw⟩
    · intro err u hfailed
      exact closeSource_holds hI hfailed
  · rintro ⟨staged, mode⟩ u ⟨hfit, hvb, hrb, hul, inode, heq, hu⟩
    cases heq
    have hTu : appliedListing .win32 umask run i file f inode file.target
        = some ⟨⟨file.after, modeOf umask file f, 1⟩, inode⟩ := Function.update_self _ _ _
    refine (checkApplied_holds hu (hIapplied _) hb hTu rfl rfl rfl rfl).imp ?_ ?_
    · rintro opened x ⟨rfl, hx, hverify, hread⟩
      refine ⟨hfit, ?_, inode, hopened inode, hx⟩
      rintro site hφ hsite
      rcases exposed_cases hsite with rfl | rfl | ⟨-, h, -⟩ | ⟨rfl, -⟩ | ⟨rfl, -⟩ | ⟨rfl, -⟩
      · exact hverify hφ
      · exact hread hφ
      · cases h
      · exact hul hφ
      · exact hvb hφ
      · exact hrb hφ
    · rintro err x ⟨hplain, hφ, hx⟩
      rcases hφ with hφ | hφ
      · exact .applied hplain hφ hfit trivial hx
      · exact .applied hplain hφ hfit trivial hx

/-! ## The whole of it -/

/-- **One file** is committed, or fails as `Failed` says, through listings that are all `Between`
the first one and the last. -/
theorem applyOne_holds (hd : d.Shows φ f)
    (hfresh : ∀ role, f (.temporary file.relativePath run i role) = none)
    (hI : ∀ g, Between platform run i file f g → I g) :
    Prog.Holds (applyOne platform boundary umask run i file) d (Leaving I)
      (Applied platform boundary umask run i file φ f)
      (Failed platform boundary umask run i file φ f) := by
  have hIf : I f := hI f .start
  have hstruck : ∀ site, ¬ Exposed platform file.existedBefore site → φ = some (i, site) →
      ∀ u, u.Shows none f → Failed platform boundary umask run i file φ f (.io (i, site)) u :=
    fun _ hsite hstrike _ hu => .clean trivial hstrike (fun _ => hsite) hu
  unfold applyOne
  cases hb : boundary file.relativePath with
  | error message =>
    have hfits : ¬ Fits boundary file f := by
      rintro ⟨hok, -⟩
      rw [hb] at hok
      cases hok
    exact verify_outside hd hIf hb (hstruck _ id) fun _ => .stale trivial hfits hd
  | ok _ =>
    cases hT : f file.target with
    | none =>
      refine verify_absent hd hIf hb hT (hstruck _ id) fun _ => ?_
      refine verify_absent hd hIf hb hT (hstruck _ id) fun _ => ?_
      cases hexisted : file.existedBefore with
      | true =>
        rw [if_pos (by simp)]
        refine Prog.holds_throw (.stale trivial ?_ hd)
        rintro ⟨-, ⟨-, hnew⟩ | ⟨e, he, -⟩⟩
        · exact nomatch hexisted.symm.trans hnew
        · rw [hT] at he
          cases he
      | false =>
        rw [if_neg (by simp)]
        refine fsCall_step hd hIf rfl hd hIf (hstruck _ id) fun _ => ?_
        exact applyNew_holds hd hb hfresh hI hT hexisted
    | some e =>
      by_cases hone : e.links = 1
      · refine verify_present hd hIf hb hT hone (hstruck _ id) fun _ => ?_
        refine verify_present hd hIf hb hT hone (hstruck _ id) fun _ => ?_
        cases hexisted : file.existedBefore with
        | false =>
          rw [if_pos (by simp)]
          refine Prog.holds_throw (.stale trivial ?_ hd)
          rintro ⟨-, ⟨hnone, -⟩ | ⟨e', -, hold, -⟩⟩
          · rw [hT] at hnone
            cases hnone
          · exact nomatch hexisted.symm.trans hold
        | true =>
          rw [if_neg (by simp)]
          refine fsCall_step hd hIf rfl hd hIf (hstruck _ id) fun _ => ?_
          have hnames : d.fs.names file.target = some e.inode := by
            rw [← hd.file] at hT
            exact (Fs.names_of_file hT).1
          have hd' : ({ d with descriptors := e.inode :: d.descriptors } : Disk).Shows φ f :=
            ⟨hd.fault, hd.file, hd.sound⟩
          refine fsCall_step hd hIf (by rw [hnames]) hd' hIf (hstruck _ id) fun _ => ?_
          cases platform with
          | posix => exact applyExistingPosix_holds hd' hb hfresh hI hT hone hexisted
          | win32 => exact applyExistingWindows_holds hd' hb hfresh hI hT hone hexisted
      · have hfits : ¬ Fits boundary file f := by
          rintro ⟨-, ⟨hnone, -⟩ | ⟨e', he', -, hone', -⟩⟩
          · rw [hT] at hnone
            cases hnone
          · rw [hT] at he'
            cases he'
            exact hone hone'
        exact verify_linked hd hIf hb hT hone (hstruck _ id) fun _ => .stale trivial hfits hd

end Parts

end ThreeXhaust.Patch
