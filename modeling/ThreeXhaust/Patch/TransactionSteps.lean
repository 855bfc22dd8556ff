import ThreeXhaust.Patch.Transaction

/-!
# One call of a patch transaction

What each call on the disk does to the files it shows, and what is left when it is the call that
fails. `Disk.Shows` is all a proof about the transaction needs to know of a disk.
-/

namespace ThreeXhaust.Patch

open Crash FileSystem

/-- What a disk shows: a file at every name. -/
abbrev Listing := Name → Option (Entry String)

/-- What the names of a disk show, and which call will fail. -/
structure Disk.Shows (disk : Disk) (fault : Option Call) (f : Listing) : Prop where
  fault : disk.fault = fault
  file : disk.fs.file = f
  sound : disk.fs.Sound

abbrev Leaving (I : Listing → Prop) : Disk → Call → Disk → Prop := fun _ _ u => I u.fs.file

variable {α ρ : Type} {I : Listing → Prop} {d : Disk} {φ : Option Call} {f : Listing}
  {i : Nat} {site : Site} {post : α → Disk → Prop} {fail : PatchError → Disk → Prop}

/-- The call that fails changes nothing. -/
abbrev Strikes (φ : Option Call) (call : Call) (f : Listing) (fail : PatchError → Disk → Prop) :
    Prop :=
  φ = some call → ∀ u, u.Shows none f → fail (.io call) u

/-- How the program goes on when the call was not the one that fails. -/
abbrev GoesOn (φ : Option Call) (call : Call) (f : Listing) (I : Listing → Prop) (p : Patching α)
    (post : α → Disk → Prop) (fail : PatchError → Disk → Prop) : Prop :=
  φ ≠ some call → ∀ u, u.Shows φ f → Prog.Holds p u (Leaving I) post fail

theorem Disk.Shows.strike (h : d.Shows φ f) : ({ d with fault := none } : Disk).Shows none f :=
  ⟨rfl, h.file, h.sound⟩

theorem Disk.Shows.content (h : d.Shows φ f) {n : Name} {e : Entry String} (hn : f n = some e) :
    d.fs.inodes e.inode = e.toInode := by
  rw [← h.file] at hn
  exact (Fs.names_of_file hn).2

theorem Disk.Shows.single (h : d.Shows φ f) {n m : Name} {e e' : Entry String}
    (hn : f n = some e) (hm : f m = some e') (heq : e.inode = e'.inode) (hone : e.links = 1) :
    n = m := by
  rw [← h.file] at hn hm
  exact h.sound.single n m e e' hn hm heq hone

/-- **A call that works**, unless it is the one that fails. -/
theorem fsCall_step {g : Disk → Except PatchError (ρ × Disk)} {k : ρ → Patching α} {r : ρ}
    {d' : Disk} {f' : Listing} (hd : d.Shows φ f) (hI : I f) (hg : g d = .ok (r, d'))
    (hd' : d'.Shows φ f') (hI' : I f')
    (hstrike : Strikes φ (i, site) f fail)
    (hok : φ ≠ some (i, site) → Prog.Holds (k r) d' (Leaving I) post fail) :
    Prog.Holds (fsCall i site g >>= k) d (Leaving I) post fail := by
  by_cases hfault : φ = some (i, site)
  · have hexec : execute g d (i, site) = (.error (.io (i, site)), { d with fault := none }) := by
      simp [execute, hd.fault, hfault]
    refine Prog.holds_step ?_ ?_ ?_
    · intro c hc
      rw [List.mem_singleton.mp hc]
      show I (execute g d (i, site)).2.fs.file
      rw [hexec]
      exact hd.file ▸ hI
    · intro a ha
      have hres : (execute g d (i, site)).1 = .ok a := ha
      rw [hexec] at hres
      cases hres
    · intro e he
      have hres : (execute g d (i, site)).1 = .error e := he
      show fail e (execute g d (i, site)).2
      rw [hexec] at hres ⊢
      cases hres
      exact hstrike hfault _ hd.strike
  · have hexec : execute g d (i, site) = (.ok r, d') := by
      simp [execute, hd.fault, hfault, hg]
    refine Prog.holds_step ?_ ?_ ?_
    · intro c hc
      rw [List.mem_singleton.mp hc]
      show I (execute g d (i, site)).2.fs.file
      rw [hexec]
      exact hd'.file ▸ hI'
    · intro a ha
      have hres : (execute g d (i, site)).1 = .ok a := ha
      show Prog.Holds (k a) (execute g d (i, site)).2 _ post fail
      rw [hexec] at hres ⊢
      cases hres
      exact hok hfault
    · intro e he
      have hres : (execute g d (i, site)).1 = .error e := he
      rw [hexec] at hres
      cases hres

/-- A call the disk refuses. -/
theorem fsCall_refused {g : Disk → Except PatchError (ρ × Disk)} {k : ρ → Patching α}
    {e : PatchError} (hd : d.Shows φ f) (hI : I f) (hg : g d = .error e)
    (hstrike : Strikes φ (i, site) f fail)
    (hrefused : φ ≠ some (i, site) → fail e d) :
    Prog.Holds (fsCall i site g >>= k) d (Leaving I) post fail := by
  have hfile : ∀ u, (execute g d (i, site)).2 = u → I u.fs.file := by
    rintro u rfl
    have hsame : (execute g d (i, site)).2.fs = d.fs := by
      unfold execute
      split
      · rfl
      · rw [hg]
    rw [hsame, hd.file]
    exact hI
  refine Prog.holds_step ?_ ?_ ?_
  · intro c hc
    rw [List.mem_singleton.mp hc]
    exact hfile _ rfl
  · intro a ha
    have hres : (execute g d (i, site)).1 = .ok a := ha
    unfold execute at hres
    split at hres
    · cases hres
    · rw [hg] at hres
      cases hres
  · intro e' he
    have hres : (execute g d (i, site)).1 = .error e' := he
    show fail e' (execute g d (i, site)).2
    by_cases hfault : φ = some (i, site)
    · have hexec : execute g d (i, site) = (.error (.io (i, site)), { d with fault := none }) := by
        simp [execute, hd.fault, hfault]
      rw [hexec] at hres ⊢
      cases hres
      exact hstrike hfault _ hd.strike
    · have hexec : execute g d (i, site) = (.error e, d) := by
        simp [execute, hd.fault, hfault, hg]
      rw [hexec] at hres ⊢
      cases hres
      exact hrefused hfault

/-! ## Looking -/

section Looking

variable {boundary : String → Except String Unit} {n : Name} {e : Entry String}

variable {k : Option Stats → Patching α}

theorem verify_present (hd : d.Shows φ f) (hI : I f) (hb : boundary n.relativePath = .ok ())
    (hn : f n = some e) (hone : e.links = 1) (hstrike : Strikes φ (i, site) f fail)
    (hok : φ ≠ some (i, site) → Prog.Holds (k (some (statsOf e))) d (Leaving I) post fail) :
    Prog.Holds (verify boundary i site n >>= k) d (Leaving I) post fail := by
  refine fsCall_step hd hI ?_ hd hI hstrike hok
  rw [hb, hd.file, hn]
  simp [hone]

theorem verify_absent (hd : d.Shows φ f) (hI : I f) (hb : boundary n.relativePath = .ok ())
    (hn : f n = none) (hstrike : Strikes φ (i, site) f fail)
    (hok : φ ≠ some (i, site) → Prog.Holds (k none) d (Leaving I) post fail) :
    Prog.Holds (verify boundary i site n >>= k) d (Leaving I) post fail := by
  refine fsCall_step hd hI ?_ hd hI hstrike hok
  rw [hb, hd.file, hn]

theorem verify_linked (hd : d.Shows φ f) (hI : I f) (hb : boundary n.relativePath = .ok ())
    (hn : f n = some e) (hmany : e.links ≠ 1) (hstrike : Strikes φ (i, site) f fail)
    (hrefused : φ ≠ some (i, site) →
      fail (.error s!"Patch target has multiple links: {n.relativePath}") d) :
    Prog.Holds (verify boundary i site n >>= k) d (Leaving I) post fail := by
  refine fsCall_refused hd hI ?_ hstrike hrefused
  rw [hb, hd.file, hn]
  simp [hmany]

theorem verify_outside {message : String} (hd : d.Shows φ f) (hI : I f)
    (hb : boundary n.relativePath = .error message) (hstrike : Strikes φ (i, site) f fail)
    (hrefused : φ ≠ some (i, site) → fail (.error message) d) :
    Prog.Holds (verify boundary i site n >>= k) d (Leaving I) post fail := by
  refine fsCall_refused hd hI ?_ hstrike hrefused
  rw [hb]

theorem fstat_step {k : Stats → Patching α} (hd : d.Shows φ f) (hI : I f) (hn : f n = some e)
    (hstrike : Strikes φ (i, site) f fail)
    (hok : φ ≠ some (i, site) → Prog.Holds (k (statsOf e)) d (Leaving I) post fail) :
    Prog.Holds (fstatSync i site e.inode >>= k) d (Leaving I) post fail := by
  refine fsCall_step hd hI ?_ hd hI hstrike hok
  rw [hd.content hn]
  rfl

theorem read_step {k : String → Patching α} (hd : d.Shows φ f) (hI : I f) (hn : f n = some e)
    (hstrike : Strikes φ (i, site) f fail)
    (hok : φ ≠ some (i, site) → Prog.Holds (k e.content) d (Leaving I) post fail) :
    Prog.Holds (readPatchDescriptor i site e.inode >>= k) d (Leaving I) post fail := by
  refine fsCall_step hd hI ?_ hd hI hstrike hok
  rw [hd.content hn]

/-- The file is looked at and read again. -/
theorem unchanged_step {look read : Site} {stats : Stats} {descriptor : Nat} {content : String}
    {k : Bool → Patching α} (hd : d.Shows φ f) (hI : I f) (hb : boundary n.relativePath = .ok ())
    (hn : f n = some e) (hone : e.links = 1) (hstats : stats.inode = e.inode)
    (hdescriptor : descriptor = e.inode) (hcontent : e.content = content)
    (hlook : φ = some (i, look) → ∀ u, u.Shows none f → fail (.io (i, look)) u)
    (hread : φ = some (i, read) → ∀ u, u.Shows none f → fail (.io (i, read)) u)
    (hok : φ ≠ some (i, look) → φ ≠ some (i, read) → Prog.Holds (k true) d (Leaving I) post fail) :
    Prog.Holds (unchanged boundary i look read stats n descriptor content >>= k) d
      (Leaving I) post fail := by
  refine Prog.holds_bind (M := fun intact u => intact = true ∧ u = d ∧ φ ≠ some (i, look)
    ∧ φ ≠ some (i, read)) ?_ ?_
  · unfold unchanged
    refine verify_present hd hI hb hn hone hlook fun hne => ?_
    rw [if_pos (by simp [isSameFile, statsOf, hstats]), hdescriptor]
    refine read_step hd hI hn hread fun hne' => ?_
    exact Prog.holds_pure ⟨decide_eq_true hcontent, rfl, hne, hne'⟩
  · rintro intact u ⟨rfl, rfl, hne, hne'⟩
    exact hok hne hne'

theorem close_step {k : Unit → Patching α} {descriptor : Nat} (hd : d.Shows φ f) (hI : I f)
    (hstrike : Strikes φ (i, site) f fail)
    (hok : GoesOn φ (i, site) f I (k ()) post fail) :
    Prog.Holds (closeSync i site descriptor >>= k) d (Leaving I) post fail := by
  have hd' : ({ d with descriptors := d.descriptors.erase descriptor } : Disk).Shows φ f :=
    ⟨hd.fault, hd.file, hd.sound⟩
  exact fsCall_step hd hI rfl hd' hI hstrike fun hne => hok hne _ hd'

end Looking

/-! ## Changing -/

section Changing

variable {k : Unit → Patching α} {a b : Name} {e : Entry String} {f' : Listing}

/-- **A call that changes the names.** -/
theorem change_step {op : Fs Name String → Option (Fs Name String)} (hd : d.Shows φ f) (hI : I f)
    (hop : ∃ fs', op d.fs = some fs' ∧ fs'.file = f' ∧ fs'.Sound) (hI' : I f')
    (hstrike : Strikes φ (i, site) f fail)
    (hok : GoesOn φ (i, site) f' I (k ()) post fail) :
    Prog.Holds (fsCall i site (change op) >>= k) d (Leaving I) post fail := by
  obtain ⟨fs', hfs', hfile, hsound⟩ := hop
  have hd' : ({ d with fs := fs' } : Disk).Shows φ f' := ⟨hd.fault, hfile, hsound⟩
  refine fsCall_step hd hI ?_ hd' hI' hstrike fun hne => hok hne _ hd'
  simp [change, hfs']

theorem rename_step (hd : d.Shows φ f) (hI : I f) (hab : a ≠ b) (ha : f a = some e)
    (hb : ∀ e', f b = some e' → e'.links = 1)
    (hI' : I (Function.update (Function.update f b (some e)) a none))
    (hstrike : Strikes φ (i, site) f fail)
    (hok : GoesOn φ (i, site) (Function.update (Function.update f b (some e)) a none) I
      (k ()) post fail) :
    Prog.Holds (renameSync i site a b >>= k) d (Leaving I) post fail := by
  obtain ⟨hfault, rfl, hsound⟩ := hd
  obtain ⟨fs', hfs', hfile, -, hsound'⟩ := Fs.rename_file hsound hab ha hb
  exact change_step ⟨hfault, rfl, hsound⟩ hI ⟨fs', hfs', hfile, hsound'⟩ hI' hstrike hok

theorem link_step (hd : d.Shows φ f) (hI : I f) (ha : f a = some e) (hone : e.links = 1)
    (hb : f b = none)
    (hI' : I (Function.update (Function.update f a (some (e.counting 2))) b (some (e.counting 2))))
    (hstrike : Strikes φ (i, site) f fail)
    (hok : GoesOn φ (i, site) (Function.update (Function.update f a (some (e.counting 2))) b
      (some (e.counting 2))) I (k ()) post fail) :
    Prog.Holds (linkSync i site a b >>= k) d (Leaving I) post fail := by
  obtain ⟨hfault, rfl, hsound⟩ := hd
  obtain ⟨fs', hfs', hfile, -, hsound'⟩ := Fs.link_file hsound ha hone hb
  exact change_step ⟨hfault, rfl, hsound⟩ hI ⟨fs', hfs', hfile, hsound'⟩ hI' hstrike hok

theorem unlink_step (hd : d.Shows φ f) (hI : I f) (ha : f a = some e) (hone : e.links = 1)
    (hI' : I (Function.update f a none))
    (hstrike : Strikes φ (i, site) f fail)
    (hok : GoesOn φ (i, site) (Function.update f a none) I (k ()) post fail) :
    Prog.Holds (unlinkSync i site a >>= k) d (Leaving I) post fail := by
  obtain ⟨hfault, rfl, hsound⟩ := hd
  obtain ⟨fs', hfs', hfile, -, hsound'⟩ := Fs.unlink_file hsound ha hone
  exact change_step ⟨hfault, rfl, hsound⟩ hI ⟨fs', hfs', hfile, hsound'⟩ hI' hstrike hok

/-- Two names of one file, and no third. -/
def Pair (f : Listing) (a b : Name) (e : Entry String) : Prop :=
  a ≠ b ∧ f a = some e ∧ f b = some e ∧ e.links = 2
    ∧ ∀ n e', f n = some e' → e'.inode = e.inode → n = a ∨ n = b

/-- A link makes such a pair. -/
theorem pair_of_link (hd : d.Shows φ f) (ha : f a = some e) (hone : e.links = 1)
    (hb : f b = none) :
    Pair (Function.update (Function.update f a (some (e.counting 2))) b
      (some (e.counting 2))) a b (e.counting 2) := by
  have hab : a ≠ b := by
    rintro rfl
    rw [ha] at hb
    cases hb
  refine ⟨hab, by simp [hab], by simp, rfl, ?_⟩
  intro n e' hn heq
  by_cases hnb : n = b
  · exact .inr hnb
  · by_cases hna : n = a
    · exact .inl hna
    · rw [Function.update_of_ne hnb, Function.update_of_ne hna] at hn
      exact .inl (hd.single ha hn heq.symm hone).symm

theorem unlink_pair_step (hd : d.Shows φ f) (hI : I f) (hpair : Pair f a b e)
    (hI' : I (Function.update (Function.update f a none) b (some (e.counting 1))))
    (hstrike : Strikes φ (i, site) f fail)
    (hok : GoesOn φ (i, site) (Function.update (Function.update f a none) b
        (some (e.counting 1))) I (k ()) post fail) :
    Prog.Holds (unlinkSync i site a >>= k) d (Leaving I) post fail := by
  obtain ⟨hab, ha, hb, htwo, honly⟩ := hpair
  obtain ⟨hfault, rfl, hsound⟩ := hd
  obtain ⟨fs', hfs', hfile, -, hsound'⟩ := Fs.unlink_second_file hsound hab ha hb htwo honly
  exact change_step ⟨hfault, rfl, hsound⟩ hI ⟨fs', hfs', hfile, hsound'⟩ hI' hstrike hok

theorem rmForce_present (hd : d.Shows φ f) (hI : I f) (ha : f a = some e) (hone : e.links = 1)
    (hI' : I (Function.update f a none))
    (hstrike : Strikes φ (i, site) f fail)
    (hok : GoesOn φ (i, site) (Function.update f a none) I (k ()) post fail) :
    Prog.Holds (rmForce i site a >>= k) d (Leaving I) post fail := by
  obtain ⟨hfault, rfl, hsound⟩ := hd
  obtain ⟨fs', hfs', hfile, -, hsound'⟩ := Fs.unlink_file hsound ha hone
  exact change_step ⟨hfault, rfl, hsound⟩ hI ⟨fs', by rw [hfs']; rfl, hfile, hsound'⟩ hI' hstrike
    hok

theorem rmForce_pair (hd : d.Shows φ f) (hI : I f) (hpair : Pair f a b e)
    (hI' : I (Function.update (Function.update f a none) b (some (e.counting 1))))
    (hstrike : Strikes φ (i, site) f fail)
    (hok : GoesOn φ (i, site) (Function.update (Function.update f a none) b
        (some (e.counting 1))) I (k ()) post fail) :
    Prog.Holds (rmForce i site a >>= k) d (Leaving I) post fail := by
  obtain ⟨hab, ha, hb, htwo, honly⟩ := hpair
  obtain ⟨hfault, rfl, hsound⟩ := hd
  obtain ⟨fs', hfs', hfile, -, hsound'⟩ := Fs.unlink_second_file hsound hab ha hb htwo honly
  exact change_step ⟨hfault, rfl, hsound⟩ hI ⟨fs', by rw [hfs']; rfl, hfile, hsound'⟩ hI' hstrike
    hok

theorem rmForce_absent (hd : d.Shows φ f) (hI : I f) (ha : f a = none)
    (hstrike : Strikes φ (i, site) f fail)
    (hok : GoesOn φ (i, site) f I (k ()) post fail) :
    Prog.Holds (rmForce i site a >>= k) d (Leaving I) post fail := by
  have hnone : d.fs.unlink a = none := by
    rw [← hd.file] at ha
    rw [Fs.unlink, Fs.file_eq_none.mp ha]
    rfl
  exact change_step hd hI ⟨d.fs, by rw [hnone]; rfl, hd.file, hd.sound⟩ hI hstrike hok

end Changing

end ThreeXhaust.Patch
