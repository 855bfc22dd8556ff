import ThreeXhaust.Lib.Run
import Mathlib.Logic.Function.Basic

/-!
# The lock of a credential store

`credential-lock-files.ts` as processes on one directory: `acquireCredentialLock`,
`releaseCredentialLock` and `recoverAbandonedCredentialReclamation`, one file-system call or one
look at the clock and the process table at a time.

The lock is a file that is created exclusively. A lock that is old and whose process is dead is
removed by a process that holds a second file, the guard. A guard that is old and whose process is
dead is renamed away, looked at, and linked back if it was not the one that was observed.

The lock and the guard of one path are on one device, so a file is known by its inode. The file
system may give the inode of a removed file to a new one.
-/

namespace ThreeXhaust.Credential

def LOCK_STALE_MILLISECONDS : Nat := 30000

inductive Path where
  | lock
  | reclaim
deriving DecidableEq

/-- A file, whatever names it has. The record is missing until it is written. -/
structure LockFile where
  inode : Nat
  modifiedAt : Nat
  pid : Option Nat
  token : Option Nat
deriving DecidableEq

/-- What `readLock` returns; `file` tells which file it was, which the code does not know. -/
structure LockSnapshot extends LockFile where
  file : Nat
deriving DecidableEq

/-- `descriptor` is the file itself: it stays open until the release. -/
structure LockOwner where
  descriptor : Nat
  inode : Nat
  token : Nat
deriving DecidableEq

/-- What `createLock` is called for. -/
inductive Purpose where
  | lock
  | guard (observed : LockSnapshot)
deriving DecidableEq

def Purpose.path : Purpose → Path
  | .lock => .lock
  | .guard _ => .reclaim

/-- Where a process stands: the call it makes next, and what it knows. -/
inductive Pc where
  | idle
  -- `acquireCredentialLock`
  | looking
  | observing
  | judgingLock (observed : LockSnapshot)
  | checkingLock (observed : LockSnapshot) (guard : LockOwner)
  | checkingGuard (observed : LockSnapshot) (guard : LockOwner) (current : Option LockSnapshot)
  | judgingCurrent (observed : LockSnapshot) (guard : LockOwner)
      (current found : Option LockSnapshot)
  | unlinking (guard : LockOwner)
  | waiting
  | holding (owner : LockOwner)
  -- `recoverAbandonedCredentialReclamation`
  | recovering
  | judging (observed : LockSnapshot)
  | movingAside (observed : LockSnapshot)
  | reading (observed : LockSnapshot) (quarantine : Nat)
  | judgingMoved (observed moved : LockSnapshot) (quarantine : Nat)
  | linking (quarantine : Nat)
  | dropping (quarantine : Nat)
  -- `createLock`
  | creating (purpose : Purpose)
  | writing (purpose : Purpose) (descriptor token : Nat)
  | creationFailed (purpose : Purpose) (descriptor : Nat)
  | uncreating (purpose : Purpose) (descriptor : Nat)
  -- `removeIfOwned`
  | removing (path : Path) (owner : LockOwner)
  | unlinkingOwned (path : Path) (owner : LockOwner)
deriving DecidableEq

structure State where
  now : Nat
  /-- The files there ever were, and how many. -/
  files : Nat → LockFile
  count : Nat
  entries : Path → Option Nat
  alive : Nat → Bool
  pc : Nat → Pc

/-- What the system decides: the inode and the token of a new file, and whether a write succeeds
or a wait ends in time. -/
structure Choice where
  inode : Nat
  token : Nat
  succeeds : Bool

inductive Input where
  | tick (milliseconds : Nat)
  | crash (process : Nat)
  | run (process : Nat) (choice : Choice)

namespace State

def goto (s : State) (p : Nat) (pc : Pc) : State := { s with pc := Function.update s.pc p pc }

def setEntry (s : State) (path : Path) (entry : Option Nat) : State :=
  { s with entries := Function.update s.entries path entry }

def snapshot (s : State) (file : Nat) : LockSnapshot := { s.files file with file := file }

def readLock (s : State) (path : Path) : Option LockSnapshot := (s.entries path).map s.snapshot

def ownerIsAlive (s : State) : Option Nat → Bool
  | none => false
  | some pid => s.alive pid

/-- `Date.now() - snapshot.modifiedAt > LOCK_STALE_MILLISECONDS`. -/
def isStale (s : State) (snapshot : LockSnapshot) : Bool :=
  s.now - snapshot.modifiedAt > LOCK_STALE_MILLISECONDS

end State

def sameLock (left right : LockSnapshot) : Bool := left.inode = right.inode

/-- `device`, `inode` and `token` are those of the owner. -/
def isOwn (owner : LockOwner) (snapshot : LockSnapshot) : Bool :=
  snapshot.inode = owner.inode && snapshot.token = some owner.token

/-- Behind `createLock` where the file was there. -/
def refused : Purpose → Pc
  | .lock => .observing
  | .guard _ => .looking

/-- Behind `createLock`. -/
def created (owner : LockOwner) : Purpose → Pc
  | .lock => .holding owner
  | .guard observed => .checkingLock observed owner

/-- Behind `removeIfOwned`: the end of a release, the next round of an acquisition. -/
def removed : Path → Pc
  | .lock => .idle
  | .reclaim => .looking

/-- What `judgingCurrent` finds before the lock is unlinked. -/
def isAbandoned (s : State) (observed : LockSnapshot) (guard : LockOwner)
    (current found : Option LockSnapshot) : Bool :=
  match current with
  | none => false
  | some current =>
    sameLock observed current && found.any (isOwn guard) && s.isStale current
      && !s.ownerIsAlive current.pid

def call (s : State) (p : Nat) (choice : Choice) : State :=
  match s.pc p with
  | .idle => s.goto p .looking
  | .looking =>
    match s.readLock .reclaim with
    | some _ => s.goto p .recovering
    | none => s.goto p (.creating .lock)
  | .observing =>
    match s.readLock .lock with
    | none => s.goto p .looking
    | some observed => s.goto p (.judgingLock observed)
  | .judgingLock observed =>
    if s.isStale observed && !s.ownerIsAlive observed.pid then
      s.goto p (.creating (.guard observed))
    else s.goto p .waiting
  | .checkingLock observed guard => s.goto p (.checkingGuard observed guard (s.readLock .lock))
  | .checkingGuard observed guard current =>
    s.goto p (.judgingCurrent observed guard current (s.readLock .reclaim))
  | .judgingCurrent observed guard current found =>
    if isAbandoned s observed guard current found then s.goto p (.unlinking guard)
    else s.goto p (.removing .reclaim guard)
  | .unlinking guard => (s.setEntry .lock none).goto p (.removing .reclaim guard)
  | .waiting => s.goto p (if choice.succeeds then .looking else .idle)
  | .holding owner => s.goto p (.removing .lock owner)
  | .recovering =>
    match s.readLock .reclaim with
    | none => s.goto p .waiting
    | some observed => s.goto p (.judging observed)
  | .judging observed =>
    if s.isStale observed && !s.ownerIsAlive observed.pid then s.goto p (.movingAside observed)
    else s.goto p .waiting
  | .movingAside observed =>
    match s.entries .reclaim with
    | none => s.goto p .looking
    | some file => (s.setEntry .reclaim none).goto p (.reading observed file)
  | .reading observed quarantine =>
    s.goto p (.judgingMoved observed (s.snapshot quarantine) quarantine)
  | .judgingMoved observed moved quarantine =>
    if sameLock observed moved && !s.ownerIsAlive moved.pid then s.goto p (.dropping quarantine)
    else s.goto p (.linking quarantine)
  | .linking quarantine =>
    -- `EEXIST` is passed over
    match s.entries .reclaim with
    | some _ => s.goto p (.dropping quarantine)
    | none => (s.setEntry .reclaim (some quarantine)).goto p (.dropping quarantine)
  | .dropping _ => s.goto p .looking
  | .creating purpose =>
    match s.entries purpose.path with
    | some _ => s.goto p (refused purpose)
    | none =>
      ({ s with
          files := Function.update s.files s.count ⟨choice.inode, s.now, none, none⟩
          count := s.count + 1 }.setEntry purpose.path (some s.count)).goto p
        (.writing purpose s.count choice.token)
  | .writing purpose descriptor token =>
    if choice.succeeds then
      let file := s.files descriptor
      { s with
          files := Function.update s.files descriptor
            { file with modifiedAt := s.now, pid := some p, token := some token } }.goto p
        (created ⟨descriptor, file.inode, token⟩ purpose)
    else s.goto p (.creationFailed purpose descriptor)
  | .creationFailed purpose descriptor =>
    if (s.readLock purpose.path).any fun current => current.inode = (s.files descriptor).inode then
      s.goto p (.uncreating purpose descriptor)
    else s.goto p .idle
  | .uncreating purpose _ => (s.setEntry purpose.path none).goto p .idle
  | .removing path owner =>
    if (s.readLock path).any (isOwn owner) then s.goto p (.unlinkingOwned path owner)
    else s.goto p (removed path)
  | .unlinkingOwned path _ => (s.setEntry path none).goto p (removed path)

def step (s : State) : Input → State
  | .tick milliseconds => { s with now := s.now + milliseconds }
  | .crash p => { s with alive := Function.update s.alive p false }
  | .run p choice => if s.alive p then call s p choice else s

def initial : State where
  now := 0
  files := fun _ => ⟨0, 0, none, none⟩
  count := 0
  entries := fun _ => none
  alive := fun _ => true
  pc := fun _ => .idle

/-! ## Files of live processes -/

/-- The file a process has created and not given up, and where it stands. -/
def fileOf : Pc → Option (Path × Nat)
  | .checkingLock _ guard | .checkingGuard _ guard _ | .judgingCurrent _ guard _ _
  | .unlinking guard => some (.reclaim, guard.descriptor)
  | .holding owner => some (.lock, owner.descriptor)
  | .writing purpose descriptor _ | .creationFailed purpose descriptor
  | .uncreating purpose descriptor => some (purpose.path, descriptor)
  | .removing path owner | .unlinkingOwned path owner => some (path, owner.descriptor)
  | _ => none

def Live (s : State) (file : Nat) : Prop :=
  ∃ p path, s.alive p = true ∧ fileOf (s.pc p) = some (path, file)

/-- The lock owner of a process, from the return of `acquireCredentialLock` to the unlink of
`releaseCredentialLock`. -/
def lockOwner : Pc → Option LockOwner
  | .holding owner | .removing .lock owner | .unlinkingOwned .lock owner => some owner
  | _ => none

/-- At most one live process holds the lock, and its file is the lock file. -/
structure Exclusive (s : State) : Prop where
  one : ∀ p q owner owner', s.alive p = true → s.alive q = true →
    lockOwner (s.pc p) = some owner → lockOwner (s.pc q) = some owner' → p = q
  kept : ∀ p owner, s.alive p = true → lockOwner (s.pc p) = some owner →
    s.entries .lock = some owner.descriptor

/-- The steps that go well: a rename does not catch the guard of a live process, no live process
has left its lock file without a record for so long that it is taken for abandoned, and the second
look at a lock does not meet a later file with the inode of the first. -/
def Sound (s : State) : Input → Prop
  | .run p _ =>
    match s.pc p with
    | .movingAside _ => ∀ file, s.entries .reclaim = some file → ¬ Live s file
    | .judgingLock observed =>
      observed.pid = none → s.isStale observed = true → ¬ Live s observed.file
    | .judgingCurrent observed _ current _ =>
      ∀ found ∈ current, sameLock observed found = true → found.file = observed.file
    | _ => True
  | _ => True

end ThreeXhaust.Credential
