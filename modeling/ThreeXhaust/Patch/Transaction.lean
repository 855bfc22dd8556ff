import ThreeXhaust.Lib.Crash
import ThreeXhaust.Lib.FileSystem
import ThreeXhaust.Patch.Prepare

/-!
# Writing the files of a patch

`coding-runtime-patch-transaction.ts` with `coding-runtime-patch-windows.ts` and
`coding-runtime-patch-descriptor.ts`: every file is staged beside its target, checked, and moved
onto it, one file after another; when one fails, those already written are rolled back.

Every call on the file system is made at a `Site` of one file of the list. A `Disk` may hold one
`fault`, the call that is going to fail; a call that fails changes no file. A descriptor is known
by its inode. The reads of `readPatchDescriptor` and the looks of `verifyPatchPath` at a path fail
alike, so each of the two is one call.
-/

namespace ThreeXhaust.Patch

open Crash FileSystem

/-! ## The disk -/

inductive TemporaryRole where
  | stage
  | backup
  | displaced
  | restage
deriving DecidableEq

/-- A file of the project, or a temporary beside it. `patchTemporaryPath` draws a random name:
no two runs, files or roles share one. -/
inductive Name where
  | target (relativePath : String)
  | temporary (relativePath : String) (run index : Nat) (role : TemporaryRole)
deriving DecidableEq

def Name.relativePath : Name → String
  | .target relativePath => relativePath
  | .temporary relativePath _ _ _ => relativePath

/-- The calls of `openStage`. -/
inductive StageCall where
  | create
  | chmod
  | write
  | stat
  | close
  | remove
deriving DecidableEq

/-- The places of a call on the file system, in the order of the source. -/
inductive Site where
  -- `applyOne`
  | path
  | verifyTarget
  | ensureParent
  | openSource
  | statSource
  | readSource
  | stage (call : StageCall)
  | verifySource
  | rereadSource
  | renameStage
  | verifyAbsent
  | verifyApplied
  | readApplied
  | closeStage
  | removeStage
  | closeSource
  -- `linkNoReplace` and `replaceExistingWindows`
  | linkStage
  | unlinkStage
  | moveAside
  | verifyBackup
  | readBackup
  | verifyVacated
  | linkBackup
  | unlinkBackup
  | verifyKept
  -- `rollback` and `rollbackExistingWindows`
  | rollbackVerify
  | rollbackRead
  | rollbackVerifyNew
  | rollbackRemove
  | rollbackClose
  | rollbackStage (call : StageCall)
  | rollbackReverify
  | rollbackReread
  | rollbackRename
  | rollbackVerifyRestored
  | rollbackCloseStage
  | rollbackRemoveStage
  | rollbackMove
  | rollbackVerifyDisplaced
  | rollbackReadDisplaced
  | rollbackVerifyVacated
  | rollbackLinkDisplaced
  | rollbackUnlinkDisplaced
  | rollbackLinkBackup
  | rollbackUnlinkBackup
  | rollbackRemoveDisplaced
  | rollbackStatOriginal
  | rollbackVerifyOriginal
  | rollbackReadOriginal
  -- `closeApplied` after the rollbacks, and at the end of `applyPatchTransaction`
  | rollbackCloseDescriptor
  | rollbackCloseOriginal
  | finishClose
  | finishCloseOriginal
  | removeBackup
deriving DecidableEq

/-- A call: which file of the list it is made for, and where. -/
abbrev Call := Nat × Site

structure Disk where
  fs : Fs Name String
  fault : Option Call
  descriptors : List Nat

structure Stats where
  inode : Nat
  mode : Nat
  links : Nat
deriving DecidableEq

def statsOf (e : Entry String) : Stats := ⟨e.inode, e.mode, e.links⟩

def isSameFile (left : Stats) (right : Option Stats) : Bool := right.any (·.inode = left.inode)

structure TransactionalPatchFile where
  relativePath : String
  before : String
  after : String
  existedBefore : Bool
deriving DecidableEq

structure AppliedPatchFile where
  existedBefore : Bool
  relativePath : String
  descriptor : Nat
  originalDescriptor : Option Nat
  stats : Stats
  before : String
  after : String
  mode : Nat
  backupPath : Option Name
deriving DecidableEq

inductive PatchError where
  | error (message : String)
  | io (call : Call)
  | committed (message : String) (applied : AppliedPatchFile)
  | originalPreserved (backupPath : Name)
  | rollbackIncomplete (cause : String)

def PatchError.message : PatchError → String
  | .error message => message
  | .io _ => "EIO: i/o error"
  | .committed message _ => message
  | .originalPreserved backupPath =>
    let path := backupPath.relativePath
    s!"Patch target changed during apply; original preserved at {path}"
  | .rollbackIncomplete cause => s!"Patch apply failed: {cause}; rollback incomplete"

inductive Platform where
  | posix
  | win32
deriving DecidableEq

/-! ## Calls -/

abbrev Patching := Prog Disk Call PatchError

section Calls

variable {ρ : Type}

/-- What a call does to the disk: the one that was going to fail does nothing else. -/
def execute (f : Disk → Except PatchError (ρ × Disk)) (disk : Disk) (call : Call) :
    Except PatchError ρ × Disk :=
  if disk.fault = some call then (.error (.io call), { disk with fault := none })
  else
    match f disk with
    | .ok (r, disk') => (.ok r, disk')
    | .error e => (.error e, disk)

def fsCall (index : Nat) (site : Site) (f : Disk → Except PatchError (ρ × Disk)) : Patching ρ :=
  Prog.call (execute f) (index, site)

def change (f : Fs Name String → Option (Fs Name String)) (disk : Disk) :
    Except PatchError (Unit × Disk) :=
  match f disk.fs with
  | some fs => .ok ((), { disk with fs := fs })
  | none => .error (.error "ENOENT or EEXIST")

def renameSync (index : Nat) (site : Site) (a b : Name) : Patching Unit :=
  fsCall index site (change (·.rename a b))

def linkSync (index : Nat) (site : Site) (a b : Name) : Patching Unit :=
  fsCall index site (change (·.link a b))

def unlinkSync (index : Nat) (site : Site) (a : Name) : Patching Unit :=
  fsCall index site (change (·.unlink a))

/-- `rmSync(path, { force: true })`. -/
def rmForce (index : Nat) (site : Site) (a : Name) : Patching Unit :=
  fsCall index site (change fun fs => some ((fs.unlink a).getD fs))

def closeSync (index : Nat) (site : Site) (descriptor : Nat) : Patching Unit :=
  fsCall index site fun disk =>
    .ok ((), { disk with descriptors := disk.descriptors.erase descriptor })

def fstatSync (index : Nat) (site : Site) (descriptor : Nat) : Patching Stats :=
  fsCall index site fun disk =>
    let d := disk.fs.inodes descriptor
    .ok (⟨descriptor, d.mode, d.links⟩, disk)

def readPatchDescriptor (index : Nat) (site : Site) (descriptor : Nat) : Patching String :=
  fsCall index site fun disk => .ok ((disk.fs.inodes descriptor).content, disk)

def linkNoReplace (index : Nat) (link unlink : Site) (a b : Name) : Patching Unit := do
  linkSync index link a b
  unlinkSync index unlink a

end Calls

section Transaction

variable (platform : Platform)
-- what `verifyPatchPath` finds wrong with the directories on the way to a path
variable (boundary : String → Except String Unit)
-- the mode a file is created with when it is asked for one
variable (umask : Nat → Nat)
-- the process, whose temporary files no other process has
variable (run : Nat)

def verify (index : Nat) (site : Site) (n : Name) : Patching (Option Stats) :=
  fsCall index site fun disk =>
    match boundary n.relativePath with
    | .error message => .error (.error message)
    | .ok () =>
      match disk.fs.file n with
      | none => .ok (none, disk)
      | some e =>
        if e.links ≠ 1 then
          let path := n.relativePath
          .error (.error s!"Patch target has multiple links: {path}")
        else .ok (some (statsOf e), disk)

/-- `isSameFile(stats, verify(path)) && readPatchDescriptor(descriptor).equals(content)`. -/
def unchanged (index : Nat) (look read : Site) (stats : Stats) (n : Name) (descriptor : Nat)
    (content : String) : Patching Bool := do
  let found ← verify boundary index look n
  if isSameFile stats found then do
    let now ← readPatchDescriptor index read descriptor
    pure (decide (now = content))
  else pure false

def changedBefore (relativePath : String) : PatchError :=
  .error s!"Patch target changed before apply: {relativePath}"

def changedDuringRollback (relativePath : String) : PatchError :=
  .error s!"Patch target changed during rollback: {relativePath}"

structure Staged where
  descriptor : Nat
  path : Name
  stats : Stats

def openStage (index : Nat) (role : TemporaryRole) (site : StageCall → Site)
    (relativePath content : String) (mode : Option Nat) : Patching Staged := do
  let temporaryPath := Name.temporary relativePath run index role
  let descriptor ← fsCall index (site .create) fun disk =>
    match disk.fs.create temporaryPath "" (umask (mode.getD 0o644)) with
    | some (i, fs) => .ok (i, { disk with fs := fs, descriptors := i :: disk.descriptors })
    | none => .error (.error "EEXIST")
  Prog.onError (do
      match mode with
      | some mode => fsCall index (site .chmod) (change (·.chmod temporaryPath mode))
      | none => pure ()
      fsCall index (site .write) (change fun fs => some (fs.write descriptor content))
      let stats ← fstatSync index (site .stat) descriptor
      pure ⟨descriptor, temporaryPath, stats⟩)
    (do
      closeSync index (site .close) descriptor
      rmForce index (site .remove) temporaryPath)

/-! ### One file -/

/-- The `finally` of a stage that was not committed. -/
def discardStage (index : Nat) (staged : Staged) : Patching Unit := do
  closeSync index .closeStage staged.descriptor
  rmForce index .removeStage staged.path

def restoreVacated (index : Nat) (look link unlink : Site) (path kept : Name) :
    Patching Unit := do
  if (← verify boundary index look path).isNone then linkNoReplace index link unlink kept path
  else pure ()

def replaceExistingWindows (index : Nat) (path backupPath stagedPath : Name) (source : Stats)
    (before : String) : Patching Unit := do
  renameSync index .moveAside path backupPath
  if ← unchanged boundary index .verifyBackup .readBackup source backupPath source.inode before then
    match ← Prog.attempt (linkNoReplace index .linkStage .unlinkStage stagedPath path) with
    | .ok () => pure ()
    | .error e => do
      restoreVacated boundary index .verifyVacated .linkBackup .unlinkBackup path backupPath
      if (← verify boundary index .verifyKept backupPath).isSome then
        Prog.throw (.originalPreserved backupPath)
      else Prog.throw e
  else do
    restoreVacated boundary index .verifyVacated .linkBackup .unlinkBackup path backupPath
    Prog.throw (changedBefore path.relativePath)

/-- The stats of an opened source that is the target, alone, and holds what it held. -/
def checkSource (index : Nat) (file : TransactionalPatchFile) (target : Stats)
    (descriptor : Nat) : Patching Stats := do
  let source ← fstatSync index .statSource descriptor
  if source.links ≠ 1 ∨ ¬ isSameFile source (some target) then
    Prog.throw (changedBefore file.relativePath)
  else do
    let content ← readPatchDescriptor index .readSource descriptor
    if content = file.before then pure source
    else Prog.throw (changedBefore file.relativePath)

def recheckSource (index : Nat) (file : TransactionalPatchFile) (source : Stats) :
    Patching Unit := do
  if ← unchanged boundary index .verifySource .rereadSource source (.target file.relativePath)
      source.inode file.before then pure ()
  else Prog.throw (changedBefore file.relativePath)

def checkApplied (index : Nat) (file : TransactionalPatchFile) (staged : Staged)
    (applied : AppliedPatchFile) : Patching AppliedPatchFile := do
  if ← unchanged boundary index .verifyApplied .readApplied staged.stats
      (.target file.relativePath) staged.descriptor file.after then pure applied
  else Prog.throw (.committed s!"Patch target changed while applying: {file.relativePath}" applied)

def appliedFile (file : TransactionalPatchFile) (staged : Staged) (mode : Option Nat)
    (original : Option (Nat × Name)) : AppliedPatchFile where
  existedBefore := file.existedBefore
  relativePath := file.relativePath
  descriptor := staged.descriptor
  originalDescriptor := original.map Prod.fst
  stats := staged.stats
  before := file.before
  after := file.after
  mode := mode.getD staged.stats.mode
  backupPath := original.map Prod.snd

def applyNew (index : Nat) (file : TransactionalPatchFile) : Patching AppliedPatchFile := do
  let staged ← openStage umask run index .stage .stage file.relativePath file.after none
  Prog.onError (do
      if (← verify boundary index .verifyAbsent (.target file.relativePath)).isSome then
        Prog.throw (changedBefore file.relativePath)
      else linkNoReplace index .linkStage .unlinkStage staged.path (.target file.relativePath))
    (discardStage index staged)
  checkApplied boundary index file staged (appliedFile file staged none none)

/-- A file is replaced by its stage; its source is closed whatever happens. -/
def applyExistingPosix (index : Nat) (file : TransactionalPatchFile) (target : Stats)
    (descriptor : Nat) : Patching AppliedPatchFile :=
  Prog.ensure (do
      let source ← checkSource index file target descriptor
      let staged ← openStage umask run index .stage .stage file.relativePath file.after
        (some source.mode)
      Prog.onError (do
          recheckSource boundary index file source
          renameSync index .renameStage staged.path (.target file.relativePath))
        (discardStage index staged)
      checkApplied boundary index file staged (appliedFile file staged (some source.mode) none))
    (closeSync index .closeSource descriptor)

/-- On Windows the file is moved aside first. Its source stays open as the original of a committed
file, and is closed only when the commit failed. -/
def applyExistingWindows (index : Nat) (file : TransactionalPatchFile) (target : Stats)
    (descriptor : Nat) : Patching AppliedPatchFile := do
  let backupPath := Name.temporary file.relativePath run index .backup
  let (staged, mode) ← Prog.onError (do
      let source ← checkSource index file target descriptor
      let staged ← openStage umask run index .stage .stage file.relativePath file.after
        (some source.mode)
      Prog.onError (do
          recheckSource boundary index file source
          replaceExistingWindows boundary index (.target file.relativePath) backupPath staged.path
            source file.before)
        (discardStage index staged)
      pure (staged, source.mode))
    (closeSync index .closeSource descriptor)
  checkApplied boundary index file staged
    (appliedFile file staged (some mode) (some (descriptor, backupPath)))

def applyOne (index : Nat) (file : TransactionalPatchFile) : Patching AppliedPatchFile := do
  let path := Name.target file.relativePath
  let _ ← verify boundary index .path path
  let target ← verify boundary index .verifyTarget path
  if file.existedBefore ≠ target.isSome then Prog.throw (changedBefore file.relativePath)
  else do
    fsCall index .ensureParent fun disk => .ok ((), disk)
    match target with
    | none => applyNew boundary umask run index file
    | some target => do
      let descriptor ← fsCall index .openSource fun disk =>
        match disk.fs.names path with
        | some i => .ok (i, { disk with descriptors := i :: disk.descriptors })
        | none => .error (.error "ENOENT")
      match platform with
      | .posix => applyExistingPosix boundary umask run index file target descriptor
      | .win32 => applyExistingWindows boundary umask run index file target descriptor

/-! ### Rolling a file back -/

def rollbackExistingWindows (index : Nat) (opened : AppliedPatchFile) (original : Nat)
    (backupPath : Name) : Patching Unit := do
  let path := Name.target opened.relativePath
  let displacedPath := Name.temporary opened.relativePath run index .displaced
  renameSync index .rollbackMove path displacedPath
  if ← unchanged boundary index .rollbackVerifyDisplaced .rollbackReadDisplaced opened.stats
      displacedPath opened.stats.inode opened.after then do
    linkNoReplace index .rollbackLinkBackup .rollbackUnlinkBackup backupPath path
    unlinkSync index .rollbackRemoveDisplaced displacedPath
    let stats ← fstatSync index .rollbackStatOriginal original
    if ← unchanged boundary index .rollbackVerifyOriginal .rollbackReadOriginal stats path original
        opened.before then pure ()
    else Prog.throw (changedDuringRollback opened.relativePath)
  else do
    restoreVacated boundary index .rollbackVerifyVacated .rollbackLinkDisplaced
      .rollbackUnlinkDisplaced path displacedPath
    Prog.throw (changedDuringRollback opened.relativePath)

/-- The old content is staged and moved over the new. -/
def rollbackExistingPosix (index : Nat) (opened : AppliedPatchFile) : Patching Unit := do
  let path := Name.target opened.relativePath
  let staged ← openStage umask run index .restage .rollbackStage opened.relativePath opened.before
    (some opened.mode)
  Prog.ensure (do
      if ← unchanged boundary index .rollbackReverify .rollbackReread opened.stats path
          opened.descriptor opened.after then do
        renameSync index .rollbackRename staged.path path
        let restored ← verify boundary index .rollbackVerifyRestored path
        if isSameFile staged.stats restored then pure ()
        else Prog.throw (changedDuringRollback opened.relativePath)
      else Prog.throw (changedDuringRollback opened.relativePath))
    (do
      closeSync index .rollbackCloseStage staged.descriptor
      rmForce index .rollbackRemoveStage staged.path)

def rollback (index : Nat) (opened : AppliedPatchFile) : Patching Unit := do
  let path := Name.target opened.relativePath
  let target ← verify boundary index .rollbackVerify path
  if ¬ isSameFile opened.stats target then
    Prog.throw (.error
      s!"Patch target changed while applying; rollback blocked: {opened.relativePath}")
  else do
    let content ← readPatchDescriptor index .rollbackRead opened.descriptor
    if content ≠ opened.after then
      Prog.throw (.error
        s!"Patch target changed after apply; rollback blocked: {opened.relativePath}")
    else if ¬ opened.existedBefore then do
      let target ← verify boundary index .rollbackVerifyNew path
      if isSameFile opened.stats target then unlinkSync index .rollbackRemove path
      else Prog.throw (changedDuringRollback opened.relativePath)
    else
      match opened.backupPath with
      | some backupPath =>
        match opened.originalDescriptor with
        | none => Prog.throw (.error
            s!"Original patch descriptor closed before rollback: {opened.relativePath}")
        | some original => do
          closeSync index .rollbackClose opened.descriptor
          rollbackExistingWindows boundary run index opened original backupPath
      | none => rollbackExistingPosix boundary umask run index opened

/-! ### The list -/

/-- `closeApplied`: a descriptor that a rollback closed is not closed again. -/
def closeApplied (index : Nat) (descriptor original : Site) (opened : AppliedPatchFile) :
    Patching Unit := do
  let isOpen ← Prog.read fun disk => .ok (decide (opened.descriptor ∈ disk.descriptors))
  if isOpen then closeSync index descriptor opened.descriptor else pure ()
  match opened.originalDescriptor with
  | some originalDescriptor => closeSync index original originalDescriptor
  | none => pure ()

/-- The files applied in order, each with its position, and the exception that stopped the loop.
A file whose commit went through is among them. -/
@[grind =] def applyFiles : Nat → List TransactionalPatchFile →
    Patching (List (Nat × AppliedPatchFile) × Option PatchError)
  | _, [] => pure ([], none)
  | index, file :: rest => do
    match ← Prog.attempt (applyOne platform boundary umask run index file) with
    | .error (.committed message applied) =>
      pure ([(index, applied)], some (.committed message applied))
    | .error e => pure ([], some e)
    | .ok opened => do
      let (applied, failure) ← applyFiles (index + 1) rest
      pure ((index, opened) :: applied, failure)

@[grind =] def rollbackFiles : List (Nat × AppliedPatchFile) → Patching Bool
  | [] => pure true
  | (index, opened) :: rest => do
    let undone ← Prog.attempt (rollback boundary umask run index opened)
    let others ← rollbackFiles rest
    pure (undone.toBool && others)

@[grind =] def closeFiles : List (Nat × AppliedPatchFile) → Patching Unit
  | [] => pure ()
  | (index, opened) :: rest => do
    closeApplied index .rollbackCloseDescriptor .rollbackCloseOriginal opened
    closeFiles rest

@[grind =] def finishFiles : List (Nat × AppliedPatchFile) → Patching Unit
  | [] => pure ()
  | (index, opened) :: rest => do
    closeApplied index .finishClose .finishCloseOriginal opened
    match opened.backupPath with
    | some backupPath => unlinkSync index .removeBackup backupPath
    | none => pure ()
    finishFiles rest

def applyPatchTransaction (files : List TransactionalPatchFile) : Patching Unit := do
  let (applied, failure) ← applyFiles platform boundary umask run 0 files
  match failure with
  | none => finishFiles applied
  | some e => do
    let undone ← rollbackFiles boundary umask run applied.reverse
    closeFiles applied.reverse
    if undone then Prog.throw e
    else Prog.throw (.rollbackIncomplete e.message)

end Transaction

end ThreeXhaust.Patch
