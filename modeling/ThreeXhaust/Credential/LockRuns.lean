import ThreeXhaust.Credential.Lock

/-!
# Who removes a lock file

In a run whose steps are `Sound` the guard of a live process stands until the process removes it,
so no two processes are between the check of an abandoned lock and its unlink, and the lock that
is unlinked is the one that was checked.

* **`Inv.step`** — what a live process knows where it stands is kept by every sound step.
-/

namespace ThreeXhaust.Credential

def Abandoned (s : State) (file : Nat) : Prop := file < s.count ∧ ¬ Live s file

structure Taken (s : State) (snapshot : LockSnapshot) : Prop where
  known : snapshot.file < s.count
  pid : ∀ q, snapshot.pid = some q → (s.files snapshot.file).pid = some q

def Knows (s : State) : Pc → Prop
  | .judgingLock observed => Taken s observed
  | .creating (.guard observed) | .writing (.guard observed) _ _ | .checkingLock observed _ =>
    Taken s observed ∧ Abandoned s observed.file
  | .checkingGuard observed _ current | .judgingCurrent observed _ current _ =>
    Taken s observed ∧ Abandoned s observed.file ∧ ∀ found ∈ current, Taken s found
      ∧ (found.file = observed.file → s.entries .lock = some observed.file)
  | .unlinking _ => ∃ file, s.entries .lock = some file ∧ Abandoned s file
  | .reading _ quarantine | .judgingMoved _ _ quarantine | .linking quarantine
  | .dropping quarantine => Abandoned s quarantine
  | _ => True

structure Inv (s : State) : Prop where
  entry : ∀ path file, s.entries path = some file → file < s.count
  owned : ∀ p path file, s.alive p = true → fileOf (s.pc p) = some (path, file) →
    s.entries path = some file
  once : ∀ p q path path' file, s.alive p = true → s.alive q = true →
    fileOf (s.pc p) = some (path, file) → fileOf (s.pc q) = some (path', file) → p = q
  pid : ∀ p path file q, s.alive p = true → fileOf (s.pc p) = some (path, file) →
    (s.files file).pid = some q → q = p
  knows : ∀ p, s.alive p = true → Knows s (s.pc p)

/-! ## What a step leaves -/

/-- A process goes on; of the files that were there it gains none, and what is known of them
stays. -/
structure Moves (s s' : State) (p : Nat) (next : Pc) : Prop where
  alive : s'.alive = s.alive
  pc : s'.pc = Function.update s.pc p next
  count : s.count ≤ s'.count
  file : ∀ path file, fileOf next = some (path, file) →
    fileOf (s.pc p) = some (path, file) ∨ s.count ≤ file
  pid : ∀ file < s.count, ∀ q, (s.files file).pid = some q → (s'.files file).pid = some q

variable {s s' : State} {p : Nat} {next : Pc}

theorem Moves.live (m : Moves s s' p next) {file : Nat} (hfile : file < s.count)
    (h : Live s' file) : Live s file := by
  obtain ⟨q, path, halive, hq⟩ := h
  rw [m.alive] at halive
  rw [m.pc] at hq
  by_cases hqp : q = p
  · rw [hqp, Function.update_self] at hq
    obtain hold | hnew := m.file path file hq
    · exact ⟨p, path, hqp ▸ halive, hold⟩
    · omega
  · rw [Function.update_of_ne hqp] at hq
    exact ⟨q, path, halive, hq⟩

theorem Moves.abandoned (m : Moves s s' p next) {file : Nat} (h : Abandoned s file) :
    Abandoned s' file :=
  ⟨Nat.lt_of_lt_of_le h.1 m.count, fun hlive => h.2 (m.live h.1 hlive)⟩

theorem Moves.taken (m : Moves s s' p next) {snapshot : LockSnapshot} (h : Taken s snapshot) :
    Taken s' snapshot := by
  constructor
  · exact Nat.lt_of_lt_of_le h.known m.count
  · intro q hq
    exact m.pid _ h.known q (h.pid q hq)

def KeepsLock (s s' : State) : Prop :=
  ∀ file, s.entries .lock = some file → Abandoned s file → s'.entries .lock = some file

/-- What a process knows, it knows behind a step that keeps snapshots and abandoned files, if a
process with a guard keeps the abandoned lock it looks at. -/
theorem Knows.mono {other : Pc} (htaken : ∀ snapshot, Taken s snapshot → Taken s' snapshot)
    (habandoned : ∀ file, Abandoned s file → Abandoned s' file)
    (hlock : ∀ guard, fileOf other = some (.reclaim, guard) → KeepsLock s s')
    (h : Knows s other) : Knows s' other := by
  cases other with
  | judgingLock observed => exact htaken _ h
  | creating purpose =>
    cases purpose with
    | lock => trivial
    | guard observed => exact ⟨htaken _ h.1, habandoned _ h.2⟩
  | writing purpose descriptor token =>
    cases purpose with
    | lock => trivial
    | guard observed => exact ⟨htaken _ h.1, habandoned _ h.2⟩
  | checkingLock observed guard => exact ⟨htaken _ h.1, habandoned _ h.2⟩
  | checkingGuard observed guard current =>
    obtain ⟨hobserved, hgone, hcurrent⟩ := h
    refine ⟨htaken _ hobserved, habandoned _ hgone, fun found hfound => ?_⟩
    obtain ⟨hshot, hentry⟩ := hcurrent found hfound
    exact ⟨htaken _ hshot, fun heq => hlock _ rfl _ (hentry heq) hgone⟩
  | judgingCurrent observed guard current found =>
    obtain ⟨hobserved, hgone, hcurrent⟩ := h
    refine ⟨htaken _ hobserved, habandoned _ hgone, fun found hfound => ?_⟩
    obtain ⟨hshot, hentry⟩ := hcurrent found hfound
    exact ⟨htaken _ hshot, fun heq => hlock _ rfl _ (hentry heq) hgone⟩
  | unlinking guard =>
    obtain ⟨file, hentry, hgone⟩ := h
    exact ⟨file, hlock _ rfl file hentry hgone, habandoned _ hgone⟩
  | reading observed quarantine => exact habandoned _ h
  | judgingMoved observed moved quarantine => exact habandoned _ h
  | linking quarantine => exact habandoned _ h
  | dropping quarantine => exact habandoned _ h
  | _ => trivial

theorem Moves.knows (m : Moves s s' p next) {other : Pc}
    (hlock : ∀ guard, fileOf other = some (.reclaim, guard) → KeepsLock s s')
    (h : Knows s other) : Knows s' other :=
  h.mono (fun _ => m.taken) (fun _ => m.abandoned) hlock

/-- **One process goes on**: what is left to show is about the directory and about that process. -/
theorem Inv.move (h : Inv s) (hp : s.alive p = true) (m : Moves s s' p next)
    (hentry : ∀ path file, s'.entries path = some file → file < s'.count)
    (hothers : ∀ q path file, q ≠ p → s.alive q = true → fileOf (s.pc q) = some (path, file) →
      s'.entries path = some file ∧ (s'.files file).pid = (s.files file).pid)
    (hown : ∀ path file, fileOf next = some (path, file) → s'.entries path = some file
      ∧ ∀ q, (s'.files file).pid = some q → q = p)
    (hlock : ∀ q guard, q ≠ p → s.alive q = true → fileOf (s.pc q) = some (.reclaim, guard) →
      KeepsLock s s')
    (hknows : Knows s' next) : Inv s' := by
  have hcases (q : Nat) (hq : s'.alive q = true) :
      (q = p ∧ s'.pc q = next) ∨ (q ≠ p ∧ s.alive q = true ∧ s'.pc q = s.pc q) := by
    rw [m.alive] at hq
    rw [m.pc]
    by_cases hqp : q = p
    · exact .inl ⟨hqp, by rw [hqp, Function.update_self]⟩
    · exact .inr ⟨hqp, hq, Function.update_of_ne hqp _ _⟩
  constructor
  · exact hentry
  · intro q path file hq hfile
    obtain ⟨rfl, hpc⟩ | ⟨hne, halive, hpc⟩ := hcases q hq
    · exact (hown path file (hpc ▸ hfile)).1
    · exact (hothers q path file hne halive (hpc ▸ hfile)).1
  · -- a file that is new to the process is no other's
    have honce (q : Nat) (hne : q ≠ p) (halive : s.alive q = true) (path path' : Path) (file : Nat)
        (hq : fileOf (s.pc q) = some (path, file)) (hpc : fileOf next = some (path', file)) :
        False := by
      obtain hold | hnew := m.file path' file hpc
      · exact hne (h.once q p path path' file halive hp hq hold)
      · have hlt := h.entry path file (h.owned q path file halive hq)
        omega
    intro q r path path' file hq hr hfile hfile'
    obtain ⟨rfl, hpc⟩ | ⟨hne, halive, hpc⟩ := hcases q hq
    · obtain ⟨rfl, hpc'⟩ | ⟨hne', halive', hpc'⟩ := hcases r hr
      · rfl
      · exact (honce r hne' halive' path' path file (hpc' ▸ hfile') (hpc ▸ hfile)).elim
    · obtain ⟨rfl, hpc'⟩ | ⟨hne', halive', hpc'⟩ := hcases r hr
      · exact (honce q hne halive path path' file (hpc ▸ hfile) (hpc' ▸ hfile')).elim
      · exact h.once q r path path' file halive halive' (hpc ▸ hfile) (hpc' ▸ hfile')
  · intro q path file r hq hfile hpid
    obtain ⟨rfl, hpc⟩ | ⟨hne, halive, hpc⟩ := hcases q hq
    · exact (hown path file (hpc ▸ hfile)).2 r hpid
    · rw [(hothers q path file hne halive (hpc ▸ hfile)).2] at hpid
      exact h.pid q path file r halive (hpc ▸ hfile) hpid
  · intro q hq
    obtain ⟨rfl, hpc⟩ | ⟨hne, halive, hpc⟩ := hcases q hq
    · rw [hpc]
      exact hknows
    · rw [hpc]
      exact m.knows (fun guard hguard => hlock q guard hne halive hguard) (h.knows q halive)

/-! ## Each kind of step -/

theorem Inv.goto (h : Inv s) (hp : s.alive p = true)
    (hfile : ∀ path file, fileOf next = some (path, file) → fileOf (s.pc p) = some (path, file))
    (hknows : Knows s next) : Inv (s.goto p next) := by
  have m : Moves s (s.goto p next) p next :=
    { alive := rfl
      pc := rfl
      count := Nat.le_refl _
      file := fun path file hnext => .inl (hfile path file hnext)
      pid := fun _ _ _ hq => hq }
  refine h.move hp m h.entry ?_ ?_ (fun _ _ _ _ _ _ hentry _ => hentry) ?_
  · intro q path file _ hq hpc
    exact ⟨h.owned q path file hq hpc, rfl⟩
  · intro path file hnext
    have hpc := hfile path file hnext
    exact ⟨h.owned p path file hp hpc, fun q hq => h.pid p path file q hp hpc hq⟩
  · exact m.knows (fun _ _ _ hentry _ => hentry) hknows

theorem Inv.clear (h : Inv s) (hp : s.alive p = true) {path : Path} {file : Nat}
    (hentry : s.entries path = some file)
    (hfile : ∀ path' file', fileOf next = some (path', file') →
      path' ≠ path ∧ fileOf (s.pc p) = some (path', file'))
    (hothers : ∀ q, q ≠ p → s.alive q = true → fileOf (s.pc q) ≠ some (path, file))
    (hlock : path = .lock → Abandoned s file → ∀ q guard, q ≠ p → s.alive q = true →
      fileOf (s.pc q) ≠ some (.reclaim, guard))
    (hknows : ∀ t : State, Moves s t p next → Knows t next) :
    Inv ((s.setEntry path none).goto p next) := by
  have m : Moves s ((s.setEntry path none).goto p next) p next :=
    { alive := rfl
      pc := rfl
      count := Nat.le_refl _
      file := fun path' file' hnext => .inl (hfile path' file' hnext).2
      pid := fun _ _ _ hq => hq }
  -- an entry that another live process owns is not the one that is taken away
  have hkept : ∀ path' file', s.entries path' = some file' → path' ≠ path →
      ((s.setEntry path none).goto p next).entries path' = some file' := by
    intro path' file' hold hne
    show Function.update s.entries path none path' = some file'
    rwa [Function.update_of_ne hne]
  refine h.move hp m ?_ ?_ ?_ ?_ (hknows _ m)
  · intro path' file' hnew
    change Function.update s.entries path none path' = some file' at hnew
    by_cases hpath : path' = path
    · rw [hpath, Function.update_self] at hnew
      cases hnew
    · rw [Function.update_of_ne hpath] at hnew
      exact h.entry path' file' hnew
  · intro q path' file' hne hq hpc
    have hold := h.owned q path' file' hq hpc
    refine ⟨hkept path' file' hold ?_, rfl⟩
    rintro rfl
    rw [hentry] at hold
    obtain rfl := Option.some.inj hold
    exact hothers q hne hq hpc
  · intro path' file' hnext
    obtain ⟨hne, hpc⟩ := hfile path' file' hnext
    exact ⟨hkept path' file' (h.owned p path' file' hp hpc) hne,
      fun q hq => h.pid p path' file' q hp hpc hq⟩
  · intro q guard hne hq hguard file' hold habandoned
    refine hkept .lock file' hold ?_
    rintro rfl
    rw [hentry] at hold
    obtain rfl := Option.some.inj hold
    exact hlock rfl habandoned q guard hne hq hguard

theorem Inv.unlinkOwn (h : Inv s) (hp : s.alive p = true) (path : Path) (file : Nat)
    (hpc : fileOf (s.pc p) = some (path, file)) (hnext : fileOf next = none)
    (hknows : ∀ t, Knows t next) : Inv ((s.setEntry path none).goto p next) := by
  refine h.clear hp (h.owned p path file hp hpc) ?_ ?_ ?_ (fun t _ => hknows t)
  · intro path' file' hfile
    rw [hnext] at hfile
    cases hfile
  · intro q hne hq hother
    exact hne (h.once q p path path file hq hp hother hpc)
  · rintro rfl habandoned
    exact absurd ⟨p, .lock, hp, hpc⟩ habandoned.2

theorem Inv.link (h : Inv s) (hp : s.alive p = true) {file : Nat}
    (hentry : s.entries .reclaim = none) (habandoned : Abandoned s file) :
    Inv ((s.setEntry .reclaim (some file)).goto p (.dropping file)) := by
  have m : Moves s ((s.setEntry .reclaim (some file)).goto p (.dropping file)) p (.dropping file) :=
    { alive := rfl
      pc := rfl
      count := Nat.le_refl _
      file := nofun
      pid := fun _ _ _ hq => hq }
  refine h.move hp m ?_ ?_ nofun ?_ (m.abandoned habandoned)
  · intro path file' hnew
    change Function.update s.entries .reclaim (some file) path = some file' at hnew
    by_cases hpath : path = .reclaim
    · rw [hpath, Function.update_self] at hnew
      exact Option.some.inj hnew ▸ habandoned.1
    · rw [Function.update_of_ne hpath] at hnew
      exact h.entry path file' hnew
  · intro q path file' _ hq hother
    have hold := h.owned q path file' hq hother
    refine ⟨?_, rfl⟩
    show Function.update s.entries .reclaim (some file) path = some file'
    rw [Function.update_of_ne]
    · exact hold
    · rintro rfl
      rw [hentry] at hold
      cases hold
  · intro _ _ _ _ _ _ hold _
    exact hold

theorem Inv.create (h : Inv s) (hp : s.alive p = true) {purpose : Purpose} {choice : Choice}
    (hpc : s.pc p = .creating purpose) (hentry : s.entries purpose.path = none) :
    Inv (({ s with
        files := Function.update s.files s.count ⟨choice.inode, s.now, none, none⟩
        count := s.count + 1 }.setEntry purpose.path (some s.count)).goto p
      (.writing purpose s.count choice.token)) := by
  have hold {file : Nat} (hfile : file < s.count) :
      Function.update s.files s.count ⟨choice.inode, s.now, none, none⟩ file = s.files file :=
    Function.update_of_ne (by omega) _ _
  generalize hs' : (({ s with
      files := Function.update s.files s.count ⟨choice.inode, s.now, none, none⟩
      count := s.count + 1 }.setEntry purpose.path (some s.count)).goto p
    (.writing purpose s.count choice.token)) = s'
  have hfiles : s'.files
      = Function.update s.files s.count ⟨choice.inode, s.now, none, none⟩ := by rw [← hs']; rfl
  have hentries : s'.entries = Function.update s.entries purpose.path (some s.count) := by
    rw [← hs']; rfl
  have hcount : s'.count = s.count + 1 := by rw [← hs']; rfl
  have m : Moves s s' p (.writing purpose s.count choice.token) :=
    { alive := by rw [← hs']; rfl
      pc := by rw [← hs']; rfl
      count := by omega
      file := by
        intro path file hnext
        cases hnext
        exact .inr (Nat.le_refl _)
      pid := fun file hfile q hq => by rwa [hfiles, hold hfile] }
  have hkept : ∀ path file, s.entries path = some file → s'.entries path = some file := by
    intro path file hbefore
    rw [hentries, Function.update_of_ne]
    · exact hbefore
    · rintro rfl
      rw [hentry] at hbefore
      cases hbefore
  refine h.move hp m ?_ ?_ ?_ (fun _ _ _ _ _ file hbefore _ => hkept .lock file hbefore) ?_
  · intro path file hnew
    rw [hentries] at hnew
    rw [hcount]
    by_cases hpath : path = purpose.path
    · rw [hpath, Function.update_self] at hnew
      have := Option.some.inj hnew
      omega
    · rw [Function.update_of_ne hpath] at hnew
      exact Nat.lt_succ_of_lt (h.entry path file hnew)
  · intro q path file _ hq hother
    have hbefore := h.owned q path file hq hother
    exact ⟨hkept path file hbefore, by rw [hfiles, hold (h.entry path file hbefore)]⟩
  · intro path file hnext
    cases hnext
    refine ⟨by rw [hentries, Function.update_self], fun q hq => ?_⟩
    rw [hfiles, Function.update_self] at hq
    cases hq
  · have hbefore := h.knows p hp
    rw [hpc] at hbefore
    cases purpose with
    | lock => trivial
    | guard observed => exact ⟨m.taken hbefore.1, m.abandoned hbefore.2⟩

theorem Inv.write (h : Inv s) (hp : s.alive p = true) {purpose : Purpose} {descriptor token : Nat}
    (hpc : s.pc p = .writing purpose descriptor token) :
    Inv ({ s with
        files := Function.update s.files descriptor
          { s.files descriptor with modifiedAt := s.now, pid := some p, token := some token } }.goto p
      (created ⟨descriptor, (s.files descriptor).inode, token⟩ purpose)) := by
  have hfileOf : fileOf (s.pc p) = some (purpose.path, descriptor) := by rw [hpc]; rfl
  have hcreated : fileOf (created ⟨descriptor, (s.files descriptor).inode, token⟩ purpose)
      = some (purpose.path, descriptor) := by
    cases purpose <;> rfl
  generalize hs' : ({ s with
      files := Function.update s.files descriptor
        { s.files descriptor with modifiedAt := s.now, pid := some p, token := some token } }.goto p
    (created ⟨descriptor, (s.files descriptor).inode, token⟩ purpose)) = s'
  have hfiles : s'.files = Function.update s.files descriptor
      { s.files descriptor with modifiedAt := s.now, pid := some p, token := some token } := by
    rw [← hs']; rfl
  have hentries : s'.entries = s.entries := by rw [← hs']; rfl
  have hcount : s'.count = s.count := by rw [← hs']; rfl
  have m : Moves s s' p (created ⟨descriptor, (s.files descriptor).inode, token⟩ purpose) :=
    { alive := by rw [← hs']; rfl
      pc := by rw [← hs']; rfl
      count := by omega
      file := by
        intro path file hnext
        rw [hcreated] at hnext
        exact .inl (hfileOf.trans hnext)
      pid := by
        intro file _ q hq
        rw [hfiles]
        by_cases hfile : file = descriptor
        · rw [hfile] at hq
          obtain rfl := h.pid p purpose.path descriptor q hp hfileOf hq
          rw [hfile, Function.update_self]
        · rwa [Function.update_of_ne hfile] }
  refine h.move hp m ?_ ?_ ?_ ?_ ?_
  · intro path file hentry
    rw [hentries] at hentry
    rw [hcount]
    exact h.entry path file hentry
  · intro q path file hne hq hother
    refine ⟨by rw [hentries]; exact h.owned q path file hq hother, ?_⟩
    rw [hfiles, Function.update_of_ne]
    rintro rfl
    exact hne (h.once q p path purpose.path file hq hp hother hfileOf)
  · intro path file hnext
    rw [hcreated] at hnext
    cases hnext
    refine ⟨by rw [hentries]; exact h.owned p _ _ hp hfileOf, fun q hq => ?_⟩
    rw [hfiles, Function.update_self] at hq
    exact (Option.some.inj hq).symm
  · intro _ _ _ _ _ file hentry _
    rw [hentries]
    exact hentry
  · have hbefore := h.knows p hp
    rw [hpc] at hbefore
    cases purpose with
    | lock => trivial
    | guard observed => exact ⟨m.taken hbefore.1, m.abandoned hbefore.2⟩

/-! ## Every step -/

theorem Inv.idle (h : Inv s) (hp : s.alive p = true) (hnext : fileOf next = none)
    (hknows : Knows s next) : Inv (s.goto p next) :=
  h.goto hp (fun path file hfile => by rw [hnext] at hfile; cases hfile) hknows

theorem Inv.taken_snapshot (h : Inv s) {path : Path} {snapshot : LockSnapshot}
    (hread : s.readLock path = some snapshot) :
    Taken s snapshot ∧ s.entries path = some snapshot.file := by
  obtain ⟨file, hentry, rfl⟩ := Option.map_eq_some_iff.mp hread
  exact ⟨⟨h.entry path file hentry, fun _ hq => hq⟩, hentry⟩

theorem Inv.abandoned_of_dead (h : Inv s) {snapshot : LockSnapshot} (htaken : Taken s snapshot)
    (hdead : s.ownerIsAlive snapshot.pid = false)
    (hmissing : snapshot.pid = none → ¬ Live s snapshot.file) : Abandoned s snapshot.file := by
  refine ⟨htaken.known, ?_⟩
  cases hpid : snapshot.pid with
  | none => exact hmissing hpid
  | some q =>
    rintro ⟨r, path, halive, hfile⟩
    obtain rfl := h.pid r path snapshot.file q halive hfile (htaken.pid q hpid)
    rw [hpid] at hdead
    exact absurd halive (by simpa [State.ownerIsAlive] using hdead)

/-- **Every call** that goes well keeps the invariant. -/
theorem Inv.call {choice : Choice} (h : Inv s) (hp : s.alive p = true)
    (hsound : Sound s (.run p choice)) : Inv (call s p choice) := by
  have hknows := h.knows p hp
  cases hpc : s.pc p with
  | idle =>
    simp only [Credential.call, hpc]
    exact h.idle hp rfl trivial
  | looking =>
    simp only [Credential.call, hpc]
    split
    · exact h.idle hp rfl trivial
    · exact h.idle hp rfl trivial
  | observing =>
    simp only [Credential.call, hpc]
    split
    · exact h.idle hp rfl trivial
    · next observed hread => exact h.idle hp rfl (h.taken_snapshot hread).1
  | judgingLock observed =>
    simp only [Credential.call, hpc]
    rw [hpc] at hknows
    split
    · next hjudged =>
      rw [Bool.and_eq_true, Bool.not_eq_true'] at hjudged
      have hmissing : observed.pid = none → ¬ Live s observed.file := by
        intro hpid
        simp only [Sound, hpc] at hsound
        exact hsound hpid hjudged.1
      exact h.idle hp rfl ⟨hknows, h.abandoned_of_dead hknows hjudged.2 hmissing⟩
    · exact h.idle hp rfl trivial
  | checkingLock observed guard =>
    simp only [Credential.call, hpc]
    rw [hpc] at hknows
    refine h.goto hp (fun path file hfile => by rw [hpc]; exact hfile) ⟨hknows.1, hknows.2, ?_⟩
    intro found hfound
    obtain ⟨htaken, hentry⟩ := h.taken_snapshot hfound
    exact ⟨htaken, fun heq => heq ▸ hentry⟩
  | checkingGuard observed guard current =>
    simp only [Credential.call, hpc]
    rw [hpc] at hknows
    exact h.goto hp (fun path file hfile => by rw [hpc]; exact hfile) hknows
  | judgingCurrent observed guard current found =>
    simp only [Credential.call, hpc]
    rw [hpc] at hknows
    split
    · next hjudged =>
      -- the lock that is to be unlinked is the one that was judged first
      refine h.goto hp (fun path file hfile => by rw [hpc]; exact hfile) ?_
      obtain ⟨htaken, habandoned, hcurrent⟩ := hknows
      cases current with
      | none => cases hjudged
      | some current =>
        simp only [isAbandoned, sameLock, Bool.and_eq_true, decide_eq_true_eq] at hjudged
        simp only [Sound, hpc] at hsound
        have hsame := hsound current rfl (decide_eq_true hjudged.1.1.1)
        exact ⟨observed.file, (hcurrent current rfl).2 hsame, habandoned⟩
    · exact h.goto hp (fun path file hfile => by rw [hpc]; exact hfile) trivial
  | unlinking guard =>
    simp only [Credential.call, hpc]
    rw [hpc] at hknows
    obtain ⟨file, hentry, habandoned⟩ := hknows
    refine h.clear hp hentry ?_ ?_ ?_ (fun _ _ => trivial)
    · intro path' file' hfile
      cases hfile
      exact ⟨by decide, by rw [hpc]; rfl⟩
    · intro q _ hq hother
      exact habandoned.2 ⟨q, .lock, hq, hother⟩
    · -- two live processes with guards have one guard, and so are one
      intro _ _ q guard' hne hq hguard'
      have hguard : fileOf (s.pc p) = some (.reclaim, guard.descriptor) := by rw [hpc]; rfl
      have hours := h.owned p _ _ hp hguard
      have htheirs := h.owned q _ _ hq hguard'
      rw [hours] at htheirs
      obtain rfl := Option.some.inj htheirs
      exact hne (h.once q p _ _ _ hq hp hguard' hguard)
  | waiting =>
    simp only [Credential.call, hpc]
    split
    · exact h.idle hp rfl trivial
    · exact h.idle hp rfl trivial
  | holding owner =>
    simp only [Credential.call, hpc]
    exact h.goto hp (fun path file hfile => by rw [hpc]; exact hfile) trivial
  | recovering =>
    simp only [Credential.call, hpc]
    split
    · exact h.idle hp rfl trivial
    · exact h.idle hp rfl trivial
  | judging observed =>
    simp only [Credential.call, hpc]
    split
    · exact h.idle hp rfl trivial
    · exact h.idle hp rfl trivial
  | movingAside observed =>
    simp only [Credential.call, hpc]
    simp only [Sound, hpc] at hsound
    split
    · exact h.idle hp rfl trivial
    · next file hentry =>
      -- the guard that is caught is nobody's
      have habandoned : Abandoned s file := ⟨h.entry _ _ hentry, hsound file hentry⟩
      refine h.clear hp hentry nofun ?_ nofun
        (fun t m => m.abandoned habandoned)
      intro q _ hq hother
      exact habandoned.2 ⟨q, .reclaim, hq, hother⟩
  | reading observed quarantine =>
    simp only [Credential.call, hpc]
    rw [hpc] at hknows
    exact h.idle hp rfl hknows
  | judgingMoved observed moved quarantine =>
    simp only [Credential.call, hpc]
    rw [hpc] at hknows
    split
    · exact h.idle hp rfl hknows
    · exact h.idle hp rfl hknows
  | linking quarantine =>
    simp only [Credential.call, hpc]
    rw [hpc] at hknows
    split
    · exact h.idle hp rfl hknows
    · next hentry => exact h.link hp hentry hknows
  | dropping quarantine =>
    simp only [Credential.call, hpc]
    exact h.idle hp rfl trivial
  | creating purpose =>
    simp only [Credential.call, hpc]
    split
    · cases purpose with
      | lock => exact h.idle hp rfl trivial
      | guard observed => exact h.idle hp rfl trivial
    · next hentry => exact h.create hp hpc hentry
  | writing purpose descriptor token =>
    simp only [Credential.call, hpc]
    split
    · exact h.write hp hpc
    · exact h.goto hp (fun path file hfile => by rw [hpc]; exact hfile) trivial
  | creationFailed purpose descriptor =>
    simp only [Credential.call, hpc]
    split
    · exact h.goto hp (fun path file hfile => by rw [hpc]; exact hfile) trivial
    · exact h.idle hp rfl trivial
  | uncreating purpose descriptor =>
    simp only [Credential.call, hpc]
    exact h.unlinkOwn hp purpose.path descriptor (by rw [hpc]; rfl) rfl (fun _ => trivial)
  | removing path owner =>
    simp only [Credential.call, hpc]
    split
    · exact h.goto hp (fun path file hfile => by rw [hpc]; exact hfile) trivial
    · cases path with
      | lock => exact h.idle hp rfl trivial
      | reclaim => exact h.idle hp rfl trivial
  | unlinkingOwned path owner =>
    simp only [Credential.call, hpc]
    cases path with
    | lock =>
      exact h.unlinkOwn hp .lock owner.descriptor (by rw [hpc]; rfl) rfl (fun _ => trivial)
    | reclaim =>
      exact h.unlinkOwn hp .reclaim owner.descriptor (by rw [hpc]; rfl) rfl (fun _ => trivial)

theorem Inv.crash (h : Inv s) (q : Nat) :
    Inv { s with alive := Function.update s.alive q false } := by
  have halive : ∀ p, Function.update s.alive q false p = true → s.alive p = true := by
    intro p hp
    by_cases hpq : p = q
    · rw [hpq, Function.update_self] at hp
      cases hp
    · rwa [Function.update_of_ne hpq] at hp
  have hlive {file : Nat} (hfile : Live { s with alive := Function.update s.alive q false } file) :
      Live s file := by
    obtain ⟨p, path, hp, hpc⟩ := hfile
    exact ⟨p, path, halive p hp, hpc⟩
  have habandoned {file : Nat} (hfile : Abandoned s file) :
      Abandoned { s with alive := Function.update s.alive q false } file :=
    ⟨hfile.1, fun h => hfile.2 (hlive h)⟩
  have hmono : ∀ pc, Knows s pc → Knows { s with alive := Function.update s.alive q false } pc :=
    fun _ => Knows.mono (fun _ htaken => ⟨htaken.known, htaken.pid⟩)
      (fun _ => habandoned) fun _ _ _ hentry _ => hentry
  exact ⟨h.entry, fun p path file hp => h.owned p path file (halive p hp),
    fun p r path path' file hp hr => h.once p r path path' file (halive p hp) (halive r hr),
    fun p path file r hp => h.pid p path file r (halive p hp),
    fun p hp => hmono _ (h.knows p (halive p hp))⟩

theorem Inv.tick (h : Inv s) (milliseconds : Nat) :
    Inv { s with now := s.now + milliseconds } := by
  have hmono : ∀ pc, Knows s pc → Knows { s with now := s.now + milliseconds } pc :=
    fun _ => Knows.mono (fun _ htaken => ⟨htaken.known, htaken.pid⟩)
      (fun _ hgone => hgone) fun _ _ _ hentry _ => hentry
  exact ⟨h.entry, h.owned, h.once, h.pid, fun p hp => hmono _ (h.knows p hp)⟩

theorem Inv.step (h : Inv s) {input : Input} (hsound : Sound s input) : Inv (step s input) := by
  cases input with
  | tick milliseconds => exact h.tick milliseconds
  | crash q => exact h.crash q
  | run p choice =>
    show Inv (if s.alive p then Credential.call s p choice else s)
    split
    · next hp => exact h.call hp hsound
    · exact h

theorem inv_initial : Inv initial := by
  constructor
  · intro path file hentry
    cases hentry
  · intro p path file _ hfile
    cases hfile
  · intro p q path path' file _ _ hfile
    cases hfile
  · intro p path file q _ hfile
    cases hfile
  · intro p _
    trivial

/-! ## The lock is exclusive -/

theorem fileOf_lockOwner {pc : Pc} {owner : LockOwner} (h : lockOwner pc = some owner) :
    fileOf pc = some (.lock, owner.descriptor) := by
  cases pc with
  | holding found =>
    cases h
    rfl
  | removing path found =>
    cases path with
    | lock =>
      cases h
      rfl
    | reclaim => cases h
  | unlinkingOwned path found =>
    cases path with
    | lock =>
      cases h
      rfl
    | reclaim => cases h
  | _ => cases h

theorem Inv.exclusive (h : Inv s) : Exclusive s := by
  constructor
  · intro p q owner owner' hp hq howner howner'
    have hfile := fileOf_lockOwner howner
    have hfile' := fileOf_lockOwner howner'
    have hentry := h.owned p _ _ hp hfile
    rw [h.owned q _ _ hq hfile'] at hentry
    rw [Option.some.inj hentry] at hfile'
    exact h.once p q _ _ _ hp hq hfile hfile'
  · intro p owner hp howner
    exact h.owned p _ _ hp (fileOf_lockOwner howner)

/-- **The lock is exclusive** in every state of a run whose steps go well. -/
theorem exclusive_of_sound {s : State} (h : Run.Reachable step Sound initial s) : Exclusive s :=
  (h.invariant Inv inv_initial fun _ _ hinv hsound => hinv.step hsound).exclusive

/-- A process dies with the lock; when the file is old enough another one removes it and takes its own,
whose inode is that of its guard. -/
def oneHolder : List Input :=
  List.replicate 4 (.run 0 ⟨10, 0, true⟩) ++ [.crash 0, .tick 30001] ++
    List.replicate 16 (.run 1 ⟨11, 1, true⟩)

theorem exclusive_oneHolder :
    Exclusive (oneHolder.foldl step initial)
      ∧ (oneHolder.foldl step initial).pc 1 = .holding ⟨2, 11, 1⟩ := by
  refine ⟨exclusive_of_sound (Run.reachable_foldl .init ?_), by decide⟩
  refine ⟨trivial, trivial, trivial, trivial, trivial, trivial, trivial, trivial, trivial, trivial,
    fun hnone => absurd hnone (by decide), trivial, trivial, trivial, trivial, ?_, trivial, trivial,
    trivial, trivial, trivial, trivial, trivial⟩
  rintro found ⟨⟩ -
  rfl

/-- Two processes die, the one with the lock, the other with the guard. A third one is about to
rename the old guard when a fourth recovers it, creates its own and checks the lock. The rename
catches the new guard, a fifth process finds none, removes the old lock and takes the new one; the
fourth removes that and takes its own. -/
def breach : List Input :=
  List.replicate 4 (Input.run 0 ⟨10, 0, true⟩) ++ [Input.crash 0, .tick 30001] ++
    List.replicate 7 (Input.run 1 ⟨11, 1, true⟩) ++ [Input.crash 1, .tick 30001] ++
    List.replicate 4 (Input.run 2 ⟨0, 0, true⟩) ++ List.replicate 17 (Input.run 3 ⟨12, 2, true⟩) ++
    [Input.run 2 ⟨0, 0, true⟩] ++ List.replicate 13 (Input.run 4 ⟨13, 3, true⟩) ++
    List.replicate 3 (Input.run 4 ⟨14, 4, true⟩) ++ List.replicate 5 (Input.run 3 ⟨15, 5, true⟩)

/-- **Two live processes** hold the lock behind it. -/
theorem exclusive_fails :
    ¬ ∀ s, Run.Reachable step Run.always initial s → Exclusive s := by
  intro h
  have hexclusive := h _ (@Run.after_reachable State Input step initial breach breach.length)
  have hthird : lockOwner ((Run.after step initial breach breach.length).pc 3)
      = some ⟨5, 15, 5⟩ := by decide +kernel
  have hfourth : lockOwner ((Run.after step initial breach breach.length).pc 4)
      = some ⟨4, 14, 4⟩ := by decide +kernel
  exact absurd (hexclusive.one 3 4 _ _ (by decide +kernel) (by decide +kernel) hthird hfourth)
    (by decide)

end ThreeXhaust.Credential
