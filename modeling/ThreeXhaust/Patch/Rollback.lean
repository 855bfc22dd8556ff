import ThreeXhaust.Patch.ApplyOne

/-!
# Rolling one file of a patch transaction back

* **`calm_rollback`** — no second call fails.
* **`rollback_holds`** — the file is as it was (`Undone`).
-/

namespace ThreeXhaust.Patch

open Crash FileSystem

variable {platform : Platform} {boundary : String → Except String Unit} {umask : Nat → Nat}
  {run i : Nat} {file : TransactionalPatchFile} {d : Disk} {φ : Option Call} {f g : Listing}

def Anything (_ : Listing) : Prop := True

def Spent (disk : Disk) : Prop := disk.fault = none

/-- Once the fault was met, no call of the program fails. -/
def Calm {α : Type} (p : Patching α) : Prop :=
  ∀ d, Spent d →
    Prog.Holds p d (fun _ _ u => Anything u.fs.file) (fun _ => Spent) (fun _ => Spent)

theorem calm_pure {α : Type} (a : α) : Calm (pure a) := fun _ hd => Prog.holds_pure hd

theorem calm_bind {α β : Type} {p : Patching α} {k : α → Patching β} (hp : Calm p)
    (hk : ∀ a, Calm (k a)) : Calm (p >>= k) :=
  fun d hd => Prog.holds_bind (hp d hd) fun a u hu => hk a u hu

theorem calm_throw {α : Type} (e : PatchError) : Calm (Prog.throw e : Patching α) :=
  fun _ hd => Prog.holds_throw hd

theorem calm_attempt {α : Type} {p : Patching α} (hp : Calm p) : Calm (Prog.attempt p) := by
  intro d hd
  refine (Prog.holds_attempt (hp d hd)).imp ?_ (fun _ _ h => h)
  rintro result u ⟨hok, herror⟩
  cases result with
  | ok a => exact hok a rfl
  | error e => exact herror e rfl

theorem calm_ofExcept {α : Type} (x : Except PatchError α) :
    Calm (Prog.ofExcept x : Patching α) :=
  fun _ hd => Prog.holds_ofExcept (fun _ _ => hd) fun _ _ => hd

theorem calm_ensure {α : Type} {p : Patching α} {last : Patching Unit} (hp : Calm p)
    (hlast : Calm last) : Calm (Prog.ensure p last) :=
  calm_bind (calm_attempt hp) fun result => calm_bind hlast fun _ => calm_ofExcept result

theorem calm_onError {α : Type} {p : Patching α} {handler : Patching Unit} (hp : Calm p)
    (hh : Calm handler) : Calm (Prog.onError p handler) := by
  refine calm_bind (calm_attempt hp) fun result => ?_
  cases result with
  | ok a => exact calm_pure a
  | error e => exact calm_bind hh fun _ => calm_throw e

variable {site : Site}

theorem calm_fsCall {ρ : Type} {op : Disk → Except PatchError (ρ × Disk)}
    (hop : ∀ d r d', op d = .ok (r, d') → d'.fault = d.fault) : Calm (fsCall i site op) := by
  intro d hd
  have hspent : Spent (execute op d (i, site)).2 := by
    unfold execute
    split
    · rfl
    · split
      · next r d' h => exact (hop d r d' h).trans hd
      · exact hd
  exact Prog.holds_call trivial (fun _ _ => hspent) fun _ _ => hspent

theorem calm_change (op : Fs Name String → Option (Fs Name String)) :
    Calm (fsCall i site (change op)) := by
  refine calm_fsCall fun d r d' h => ?_
  unfold change at h
  split at h
  · cases h
    rfl
  · cases h

theorem calm_close (descriptor : Nat) : Calm (closeSync i site descriptor) :=
  calm_fsCall fun _ _ _ h => by cases h; rfl

theorem calm_fstat (descriptor : Nat) : Calm (fstatSync i site descriptor) :=
  calm_fsCall fun _ _ _ h => by cases h; rfl

theorem calm_read (descriptor : Nat) : Calm (readPatchDescriptor i site descriptor) :=
  calm_fsCall fun _ _ _ h => by cases h; rfl

theorem calm_verify (n : Name) : Calm (verify boundary i site n) := by
  refine calm_fsCall fun d r d' h => ?_
  split at h
  · cases h
  · split at h
    · cases h
      rfl
    · split at h
      · cases h
      · cases h
        rfl

theorem calm_linkNoReplace {link unlink : Site} (a b : Name) :
    Calm (linkNoReplace i link unlink a b) :=
  calm_bind (calm_change _) fun _ => calm_change _

theorem calm_openStage {role : TemporaryRole} {site : StageCall → Site} {P content : String}
    {mode : Option Nat} : Calm (openStage umask run i role site P content mode) := by
  refine calm_bind (calm_fsCall fun d r d' h => ?_) fun descriptor => calm_onError ?_ ?_
  · split at h
    · cases h
      rfl
    · cases h
  · cases mode with
    | none => exact calm_bind (calm_change _) fun _ => calm_bind (calm_fstat _) fun _ => calm_pure _
    | some m =>
      exact calm_bind (calm_change _) fun _ => calm_bind (calm_change _) fun _ =>
        calm_bind (calm_fstat _) fun _ => calm_pure _
  · exact calm_bind (calm_close _) fun _ => calm_change _

theorem calm_unchanged {look read : Site} {stats : Stats} {n : Name} {descriptor : Nat}
    {content : String} : Calm (unchanged boundary i look read stats n descriptor content) := by
  refine calm_bind (calm_verify _) fun found => ?_
  split
  · exact calm_bind (calm_read _) fun _ => calm_pure _
  · exact calm_pure _

theorem calm_restoreVacated {look link unlink : Site} {a b : Name} :
    Calm (restoreVacated boundary i look link unlink a b) := by
  refine calm_bind (calm_verify _) fun found => ?_
  split
  · exact calm_linkNoReplace _ _
  · exact calm_pure _

theorem calm_rollbackExistingWindows {opened : AppliedPatchFile} {original : Nat} {B : Name} :
    Calm (rollbackExistingWindows boundary run i opened original B) := by
  refine calm_bind (calm_change _) fun _ => calm_bind calm_unchanged fun intact => ?_
  split
  · refine calm_bind (calm_linkNoReplace _ _) fun _ => calm_bind (calm_change _) fun _ =>
      calm_bind (calm_fstat _) fun _ => calm_bind calm_unchanged fun restored => ?_
    split
    · exact calm_pure _
    · exact calm_throw _
  · exact calm_bind calm_restoreVacated fun _ => calm_throw _

theorem calm_rollbackExistingPosix {opened : AppliedPatchFile} :
    Calm (rollbackExistingPosix boundary umask run i opened) := by
  refine calm_bind calm_openStage fun staged => calm_ensure ?_ ?_
  · refine calm_bind calm_unchanged fun intact => ?_
    split
    · refine calm_bind (calm_change _) fun _ => calm_bind (calm_verify _) fun restored => ?_
      split
      · exact calm_pure _
      · exact calm_throw _
    · exact calm_throw _
  · exact calm_bind (calm_close _) fun _ => calm_change _

theorem calm_rollback {opened : AppliedPatchFile} :
    Calm (rollback boundary umask run i opened) := by
  refine calm_bind (calm_verify _) fun target => ?_
  split
  · exact calm_throw _
  · refine calm_bind (calm_read _) fun content => ?_
    split
    · exact calm_throw _
    · split
      · refine calm_bind (calm_verify _) fun target => ?_
        split
        · exact calm_change _
        · exact calm_throw _
      · split
        · split
          · exact calm_throw _
          · exact calm_bind (calm_close _) fun _ => calm_rollbackExistingWindows
        · exact calm_rollbackExistingPosix

/-! ## What a rollback restores -/

def Struck (φ : Option Call) (disk : Disk) : Prop := φ ≠ none ∧ Spent disk

theorem Struck.of {call : Call} (hstrike : φ = some call) (u : Disk) (hu : u.Shows none g) :
    Struck φ u :=
  ⟨by simp [hstrike], hu.fault⟩

def Entry.view (e : Entry String) : String × Nat := (e.content, e.mode)

section Standing

variable (platform : Platform) (boundary : String → Except String Unit) (umask : Nat → Nat)
  (run i : Nat) (file : TransactionalPatchFile) (f g : Listing)

/-- The listing `g` shows the file as it was committed over `f`. -/
structure Standing (inode : Nat) : Prop where
  fits : Fits boundary file f
  target : g (.target file.relativePath)
    = some ⟨⟨file.after, modeOf umask file f, 1⟩, inode⟩
  backup : g (.temporary file.relativePath run i .backup) = backupOf platform file f
  temporaries : ∀ role, role ≠ .backup → g (.temporary file.relativePath run i role) = none

/-- The listing `h` shows the file as it was in `f`, and everything else as in `g`. -/
structure Undone (h : Listing) : Prop where
  target : (h (.target file.relativePath)).map Entry.view
    = (f (.target file.relativePath)).map Entry.view
  temporaries : ∀ role, h (.temporary file.relativePath run i role) = none
  others : ∀ n, ¬ Own run i file.relativePath n → h n = g n

end Standing

variable {inode : Nat}

/-- **A new file** is taken away. -/
theorem rollback_new (hd : d.Shows φ g) (hs : Standing platform boundary umask run i file f g inode)
    (hT : f file.target = none) (hexisted : file.existedBefore = false) :
    Prog.Holds (rollback boundary umask run i (openedAs platform umask run i file f inode)) d
      (fun _ _ u => Anything u.fs.file)
      (fun _ u => ∃ h, u.Shows φ h ∧ Undone run i file f g h) (fun _ => Struck φ) := by
  have hb := hs.fits.1
  have hbackup : backupOf platform file f = none := by cases platform <;> simp [backupOf, hT]
  unfold rollback
  refine verify_present hd trivial hb hs.target rfl Struck.of fun _ => ?_
  rw [if_neg (by simp [isSameFile, statsOf, openedAs])]
  refine read_step hd trivial hs.target Struck.of fun _ => ?_
  rw [if_neg (by simp [openedAs]), if_pos (by simp [openedAs, hexisted])]
  refine verify_present hd trivial hb hs.target rfl Struck.of fun _ => ?_
  rw [if_pos (by simp [isSameFile, statsOf, openedAs])]
  apply Prog.holds_of_bind_pure
  refine unlink_step hd trivial hs.target rfl trivial Struck.of fun _ u hu => ?_
  refine Prog.holds_pure ⟨Function.update g file.target none, hu, ?_, ?_, ?_⟩
  · rw [Function.update_self, hT]
  · intro role
    rw [Function.update_of_ne target_ne_temporary.symm]
    by_cases hrole : role = .backup
    · rw [hrole, hs.backup, hbackup]
    · exact hs.temporaries role hrole
  · intro n hn
    rw [Function.update_of_ne (not_own_ne hn).1]

/-- **A file that was replaced** gets its text back. -/
theorem rollback_posix {e : Entry String} (hd : d.Shows φ g)
    (hs : Standing .posix boundary umask run i file f g inode)
    (hT : f file.target = some e) (hexisted : file.existedBefore = true)
    (hcontent : e.content = file.before) :
    Prog.Holds (rollback boundary umask run i (openedAs .posix umask run i file f inode)) d
      (fun _ _ u => Anything u.fs.file)
      (fun _ u => ∃ h, u.Shows φ h ∧ Undone run i file f g h) (fun _ => Struck φ) := by
  have hb := hs.fits.1
  have hmode : modeOf umask file f = e.mode := by simp [modeOf, hT]
  have hR : g (.temporary file.relativePath run i .restage) = none := hs.temporaries _ (by decide)
  unfold rollback
  refine verify_present hd trivial hb hs.target rfl Struck.of fun _ => ?_
  rw [if_neg (by simp [isSameFile, statsOf, openedAs])]
  refine read_step hd trivial hs.target Struck.of fun _ => ?_
  rw [if_neg (by simp [openedAs]), if_neg (by simp [openedAs, hexisted])]
  show Prog.Holds (rollbackExistingPosix boundary umask run i _) d _ _ _
  unfold rollbackExistingPosix
  refine Prog.holds_bind ((openStage_holds hd hR fun _ => trivial).imp_fail ?_) ?_
  · rintro err u ⟨call, hφ, -, hu⟩
    exact .of hφ u hu
  · rintro staged u ⟨inode', rfl, hu⟩
    have hTu : stagedAs (.temporary file.relativePath run i .restage) file.before
        (modeOf umask file f) inode' g file.target
        = some ⟨⟨file.after, modeOf umask file f, 1⟩, inode⟩ := by
      rw [stagedAs, Function.update_of_ne target_ne_temporary, hs.target]
    have hRu : stagedAs (.temporary file.relativePath run i .restage) file.before
        (modeOf umask file f) inode' g (.temporary file.relativePath run i .restage)
        = some ⟨⟨file.before, modeOf umask file f, 1⟩, inode'⟩ := Function.update_self _ _ _
    -- the listing when the old content has taken its place
    have hlisting : Function.update (Function.update (stagedAs
          (.temporary file.relativePath run i .restage) file.before (modeOf umask file f) inode' g)
          file.target (some ⟨⟨file.before, modeOf umask file f, 1⟩, inode'⟩))
          (.temporary file.relativePath run i .restage) none
        = Function.update g file.target
          (some ⟨⟨file.before, modeOf umask file f, 1⟩, inode'⟩) := by
      funext n
      by_cases hnR : n = .temporary file.relativePath run i .restage
      · simp [hnR, hR]
      · rw [Function.update_of_ne hnR]
        by_cases hnT : n = file.target
        · rw [hnT, Function.update_self, Function.update_self]
        · rw [Function.update_of_ne hnT, Function.update_of_ne hnT, stagedAs,
            Function.update_of_ne hnR]
    refine Prog.holds_ensure (M := fun _ v => v.Shows φ (Function.update g
        file.target (some ⟨⟨file.before, modeOf umask file f, 1⟩, inode'⟩)))
      (Q := fun _ => Struck φ) ?_ ?_ ?_
    · refine unchanged_step hu trivial hb hTu rfl rfl rfl rfl Struck.of Struck.of fun _ _ => ?_
      refine rename_step hu trivial target_ne_temporary.symm hRu ?_ trivial Struck.of fun _ v hv => ?_
      · intro e' he'
        have hentry := hTu.symm.trans he'
        cases hentry
        rfl
      · have hv := (congrArg (v.Shows φ) hlisting).mp hv
        refine verify_present hv trivial hb (Function.update_self _ _ _) rfl Struck.of fun _ => ?_
        rw [if_pos (by simp [isSameFile, statsOf])]
        exact Prog.holds_pure hv
    · intro _ v hv
      refine close_step hv trivial Struck.of fun _ w hw => ?_
      apply Prog.holds_of_bind_pure
      refine rmForce_absent hw trivial (by simp [hR]) Struck.of fun _ x hx => ?_
      refine Prog.holds_pure ⟨Function.update g file.target
        (some ⟨⟨file.before, modeOf umask file f, 1⟩, inode'⟩), hx, ?_, ?_, ?_⟩
      · rw [Function.update_self, hT, hmode, ← hcontent]
        rfl
      · intro role
        rw [Function.update_of_ne target_ne_temporary.symm]
        by_cases hrole : role = .backup
        · rw [hrole, hs.backup]
          rfl
        · exact hs.temporaries role hrole
      · intro n hn
        rw [Function.update_of_ne (not_own_ne hn).1]
    · rintro _ v ⟨hφ, hv⟩
      exact ((calm_bind (calm_close _) fun _ => calm_change _) v hv).imp (fun _ _ hw => ⟨hφ, hw⟩) fun _ _ hw => ⟨hφ, hw⟩

/-- **A file that was moved aside** is moved back. -/
theorem rollback_win32 {e : Entry String} (hd : d.Shows φ g)
    (hs : Standing .win32 boundary umask run i file f g inode)
    (hT : f file.target = some e) (hexisted : file.existedBefore = true)
    (hcontent : e.content = file.before) (hone : e.links = 1) :
    Prog.Holds (rollback boundary umask run i (openedAs .win32 umask run i file f inode)) d
      (fun _ _ u => Anything u.fs.file)
      (fun _ u => ∃ h, u.Shows φ h ∧ Undone run i file f g h) (fun _ => Struck φ) := by
  have hb := hs.fits.1
  have hbackup : backupOf .win32 file f = some e := hT
  have hB : g (file.backup run i) = some e := hs.backup.trans hbackup
  have hD : g (.temporary file.relativePath run i .displaced) = none := hs.temporaries _ (by decide)
  -- the record names the backup and the descriptor of the original
  have hopened : openedAs .win32 umask run i file f inode = ⟨true, file.relativePath, inode,
      some e.inode, ⟨inode, modeOf umask file f, 1⟩, file.before, file.after, modeOf umask file f,
      some (file.backup run i)⟩ := by
    simp [openedAs, hbackup, hexisted]
  rw [hopened]
  unfold rollback
  refine verify_present hd trivial hb hs.target rfl Struck.of fun _ => ?_
  rw [if_neg (by simp [isSameFile, statsOf])]
  refine read_step hd trivial hs.target Struck.of fun _ => ?_
  rw [if_neg (by simp), if_neg (by simp)]
  refine close_step hd trivial Struck.of fun _ u hu => ?_
  unfold rollbackExistingWindows
  refine rename_step hu trivial target_ne_temporary hs.target (by simp [hD]) trivial Struck.of
    fun _ v hv => ?_
  have hDv : Function.update (Function.update g (.temporary file.relativePath run i .displaced)
      (some ⟨⟨file.after, modeOf umask file f, 1⟩, inode⟩)) file.target none
      (.temporary file.relativePath run i .displaced)
      = some ⟨⟨file.after, modeOf umask file f, 1⟩, inode⟩ := by simp
  have hBv : Function.update (Function.update g (.temporary file.relativePath run i .displaced)
      (some ⟨⟨file.after, modeOf umask file f, 1⟩, inode⟩)) file.target none
      (file.backup run i) = some e := by simp [hB]
  have hTv : Function.update (Function.update g (.temporary file.relativePath run i .displaced)
      (some ⟨⟨file.after, modeOf umask file f, 1⟩, inode⟩)) file.target none
      file.target = none := Function.update_self _ _ _
  refine unchanged_step hv trivial hb hDv rfl rfl rfl rfl Struck.of Struck.of fun _ _ => ?_
  refine Prog.holds_bind (M := fun _ w => w.Shows φ (Function.update (Function.update
    (Function.update g (.temporary file.relativePath run i .displaced)
      (some ⟨⟨file.after, modeOf umask file f, 1⟩, inode⟩))
      (file.backup run i) none) file.target (some e))) ?_ ?_
  · refine link_step hv trivial hBv hone hTv trivial Struck.of fun _ w hw => ?_
    apply Prog.holds_of_bind_pure
    refine unlink_pair_step hw trivial (pair_of_link hv hBv hone hTv) trivial
      Struck.of fun _ x hx => ?_
    refine Prog.holds_pure ((congrArg (x.Shows φ) ?_).mp hx)
    funext n
    by_cases hnT : n = file.target
    · rw [hnT, Function.update_self, Function.update_self, ← hone]
    · rw [Function.update_of_ne hnT, Function.update_of_ne hnT]
      by_cases hnB : n = file.backup run i
      · rw [hnB, Function.update_self, Function.update_self]
      · rw [Function.update_of_ne hnB, Function.update_of_ne hnB, Function.update_of_ne hnT,
          Function.update_of_ne hnB, Function.update_of_ne hnT]
  · intro _ w hw
    have hDw : Function.update (Function.update
        (Function.update g (.temporary file.relativePath run i .displaced)
          (some ⟨⟨file.after, modeOf umask file f, 1⟩, inode⟩))
          (file.backup run i) none) file.target (some e)
        (.temporary file.relativePath run i .displaced)
        = some ⟨⟨file.after, modeOf umask file f, 1⟩, inode⟩ := by simp
    refine unlink_step hw trivial hDw rfl trivial Struck.of fun _ x hx => ?_
    have hTx : Function.update (Function.update (Function.update
        (Function.update g (.temporary file.relativePath run i .displaced)
          (some ⟨⟨file.after, modeOf umask file f, 1⟩, inode⟩))
          (file.backup run i) none) file.target (some e))
        (.temporary file.relativePath run i .displaced) none file.target
        = some e := by simp
    refine fstat_step hx trivial hTx Struck.of fun _ => ?_
    refine unchanged_step hx trivial hb hTx hone rfl rfl hcontent Struck.of Struck.of fun _ _ => ?_
    refine Prog.holds_pure ⟨_, hx, ?_, ?_, ?_⟩
    · rw [hTx, hT]
    · intro role
      cases role with
      | stage => simpa using hs.temporaries .stage (by decide)
      | backup => simp
      | displaced => simp
      | restage => simpa using hs.temporaries .restage (by decide)
    · intro n hn
      obtain ⟨hnT, hnTemporary⟩ := not_own_ne hn
      rw [Function.update_of_ne (hnTemporary _), Function.update_of_ne hnT,
        Function.update_of_ne (hnTemporary _), Function.update_of_ne (hnTemporary _)]

/-- **A committed file is put back.** -/
theorem rollback_holds (hd : d.Shows φ g)
    (hs : Standing platform boundary umask run i file f g inode) :
    Prog.Holds (rollback boundary umask run i (openedAs platform umask run i file f inode)) d
      (fun _ _ u => Anything u.fs.file)
      (fun _ u => ∃ h, u.Shows φ h ∧ Undone run i file f g h) (fun _ => Struck φ) := by
  rcases hs.fits.2 with ⟨hT, hexisted⟩ | ⟨e, hT, hexisted, hone, hcontent⟩
  · exact rollback_new hd hs hT hexisted
  · cases platform with
    | posix => exact rollback_posix hd hs hT hexisted hcontent
    | win32 => exact rollback_win32 hd hs hT hexisted hcontent hone

end ThreeXhaust.Patch
