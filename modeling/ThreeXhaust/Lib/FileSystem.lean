import Mathlib.Logic.Function.Basic
import Mathlib.Data.Option.Basic

/-!
# A file system with hard links

Names point to inodes, and an inode has a content, a mode and a count of its names. Every call
is atomic. What a caller can see of a name is its `file`: which inode it is, with what is in it.

On a `Sound` file system a call changes what it was asked to change and nothing else.
-/

namespace FileSystem

structure Inode (γ : Type) where
  content : γ
  mode : Nat
  links : Nat
deriving DecidableEq

/-- What `lstat` and a read tell about a name. -/
structure Entry (γ : Type) extends Inode γ where
  inode : Nat
deriving DecidableEq

/-- The same file with so many names. -/
abbrev Entry.counting {γ : Type} (e : Entry γ) (links : Nat) : Entry γ :=
  ⟨⟨e.content, e.mode, links⟩, e.inode⟩

/-- The inodes from `next` on were never used. -/
structure Fs (ν γ : Type) where
  names : ν → Option Nat
  inodes : Nat → Inode γ
  next : Nat

namespace Fs

variable {ν γ : Type}

def file (fs : Fs ν γ) (n : ν) : Option (Entry γ) :=
  (fs.names n).map fun i => ⟨fs.inodes i, i⟩

/-- An inode is below `next`, and one that counts a single name has no other. -/
structure Sound (fs : Fs ν γ) : Prop where
  used : ∀ n e, fs.file n = some e → e.inode < fs.next
  single : ∀ n m e e', fs.file n = some e → fs.file m = some e' → e.inode = e'.inode →
    e.links = 1 → n = m

variable [DecidableEq ν]

/-! ## Calls -/

/-- `open(n, O_CREAT | O_EXCL)` of an empty file. -/
def create (fs : Fs ν γ) (n : ν) (empty : γ) (mode : Nat) : Option (Nat × Fs ν γ) :=
  match fs.names n with
  | some _ => none
  | none => some (fs.next, {
      names := Function.update fs.names n (some fs.next)
      inodes := Function.update fs.inodes fs.next ⟨empty, mode, 1⟩
      next := fs.next + 1 })

/-- `write` through a descriptor of the inode. -/
def write (fs : Fs ν γ) (i : Nat) (content : γ) : Fs ν γ :=
  { fs with inodes := Function.update fs.inodes i { fs.inodes i with content := content } }

def setMode (fs : Fs ν γ) (i mode : Nat) : Fs ν γ :=
  { fs with inodes := Function.update fs.inodes i { fs.inodes i with mode := mode } }

def chmod (fs : Fs ν γ) (n : ν) (mode : Nat) : Option (Fs ν γ) :=
  (fs.names n).map fun i => fs.setMode i mode

def recount (fs : Fs ν γ) (i : Nat) (f : Nat → Nat) : Fs ν γ :=
  { fs with inodes := Function.update fs.inodes i { fs.inodes i with links := f (fs.inodes i).links } }

def rebind (fs : Fs ν γ) (n : ν) (i : Option Nat) : Fs ν γ :=
  { fs with names := Function.update fs.names n i }

def link (fs : Fs ν γ) (a b : ν) : Option (Fs ν γ) :=
  match fs.names a, fs.names b with
  | some i, none => some ((fs.recount i (· + 1)).rebind b (some i))
  | _, _ => none

def unlink (fs : Fs ν γ) (a : ν) : Option (Fs ν γ) :=
  (fs.names a).map fun i => (fs.recount i (· - 1)).rebind a none

/-- `rename`: two names of one inode are left alone. -/
def rename (fs : Fs ν γ) (a b : ν) : Option (Fs ν γ) :=
  match fs.names a, fs.names b with
  | none, _ => none
  | some i, none => some ((fs.rebind b (some i)).rebind a none)
  | some i, some j =>
    if i = j then some fs
    else some (((fs.recount j (· - 1)).rebind b (some i)).rebind a none)

/-! ## What they change -/

variable {fs fs' : Fs ν γ} {a b : ν} {e : Entry γ}

omit [DecidableEq ν] in
theorem names_of_file {n : ν} (h : fs.file n = some e) :
    fs.names n = some e.inode ∧ fs.inodes e.inode = e.toInode := by
  obtain ⟨i, hi, rfl⟩ := Option.map_eq_some_iff.mp h
  exact ⟨hi, rfl⟩

omit [DecidableEq ν] in
theorem file_eq_none {n : ν} : fs.file n = none ↔ fs.names n = none := by
  unfold file
  rw [Option.map_eq_none_iff]

omit [DecidableEq ν] in
theorem file_of_names {n : ν} {i : Nat} (h : fs.names n = some i) :
    fs.file n = some ⟨fs.inodes i, i⟩ := by
  unfold file
  rw [h]
  rfl

omit [DecidableEq ν] in
theorem file_update_inode {i : Nat} {d : Inode γ} (n : ν) :
    ({ fs with inodes := Function.update fs.inodes i d } : Fs ν γ).file n
      = (fs.file n).map fun e => if e.inode = i then ⟨d, i⟩ else e := by
  unfold file
  cases h : fs.names n with
  | none => simp
  | some j =>
    by_cases hij : j = i
    · subst hij
      simp
    · simp [hij]

theorem file_rebind (n m : ν) (i : Option Nat) :
    (fs.rebind n i).file m = if m = n then i.map (fun i => ⟨fs.inodes i, i⟩) else fs.file m := by
  unfold file rebind
  by_cases hm : m = n
  · subst hm
    simp
  · simp [hm]

theorem file_update_single (hs : fs.Sound) (ha : fs.file a = some e) (hone : e.links = 1)
    (d : Inode γ) :
    ({ fs with inodes := Function.update fs.inodes e.inode d } : Fs ν γ).file
      = Function.update fs.file a (some ⟨d, e.inode⟩) := by
  funext n
  rw [file_update_inode]
  by_cases hn : n = a
  · subst hn
    simp [ha]
  · rw [Function.update_of_ne hn]
    cases h : fs.file n with
    | none => rfl
    | some e' =>
      have hne : e'.inode ≠ e.inode := fun heq => hn (hs.single a n e e' ha h heq.symm hone).symm
      simp [hne]

theorem Sound.of_update (hs : fs.Sound) (hnext : fs.next ≤ fs'.next) {entry : Option (Entry γ)}
    (hfile : fs'.file = Function.update fs.file a entry)
    (hused : ∀ e ∈ entry, e.inode < fs'.next)
    (hsingle : ∀ e ∈ entry, ∀ n e', n ≠ a → fs.file n = some e' → e'.inode ≠ e.inode) :
    fs'.Sound where
  used n e hn := by
    rw [hfile] at hn
    by_cases hna : n = a
    · subst hna
      rw [Function.update_self] at hn
      exact hused e hn
    · rw [Function.update_of_ne hna] at hn
      exact Nat.lt_of_lt_of_le (hs.used n e hn) hnext
  single n m e e' hn hm heq hone := by
    rw [hfile] at hn hm
    by_cases hna : n = a <;> by_cases hma : m = a
    · rw [hna, hma]
    · subst hna
      rw [Function.update_self] at hn
      rw [Function.update_of_ne hma] at hm
      exact absurd heq.symm (hsingle e hn m e' hma hm)
    · subst hma
      rw [Function.update_self] at hm
      rw [Function.update_of_ne hna] at hn
      exact absurd heq (hsingle e' hm n e hna hn)
    · rw [Function.update_of_ne hna] at hn
      rw [Function.update_of_ne hma] at hm
      exact hs.single n m e e' hn hm heq hone

/-- **A new file.** -/
theorem create_file (hs : fs.Sound) (ha : fs.file a = none) (empty : γ) (mode : Nat) :
    ∃ fs', fs.create a empty mode = some (fs.next, fs')
      ∧ fs'.file = Function.update fs.file a (some ⟨⟨empty, mode, 1⟩, fs.next⟩)
      ∧ fs'.next = fs.next + 1 ∧ fs'.Sound := by
  have hnone := file_eq_none.mp ha
  have hfile : ({
      names := Function.update fs.names a (some fs.next)
      inodes := Function.update fs.inodes fs.next ⟨empty, mode, 1⟩
      next := fs.next + 1 } : Fs ν γ).file
      = Function.update fs.file a (some ⟨⟨empty, mode, 1⟩, fs.next⟩) := by
    funext n
    by_cases hn : n = a
    · subst hn
      simp [file]
    · rw [Function.update_of_ne hn]
      unfold file
      simp only [Function.update_of_ne hn]
      cases h : fs.names n with
      | none => rfl
      | some i =>
        have hlt : i < fs.next := hs.used n _ (file_of_names h)
        have hne : i ≠ fs.next := by omega
        simp [hne]
  refine ⟨_, by simp only [create, hnone], hfile, rfl, ?_⟩
  refine hs.of_update (Nat.le_succ _) hfile ?_ ?_
  · intro e he
    cases he
    exact Nat.lt_succ_self _
  · intro e he n e' _ hn
    cases he
    have hlt := hs.used n e' hn
    exact Nat.ne_of_lt hlt

/-- **The content** of a file with one name. -/
theorem write_file (hs : fs.Sound) (ha : fs.file a = some e) (hone : e.links = 1) (content : γ) :
    (fs.write e.inode content).file
        = Function.update fs.file a (some ⟨⟨content, e.mode, 1⟩, e.inode⟩)
      ∧ (fs.write e.inode content).Sound := by
  obtain ⟨-, hinode⟩ := names_of_file ha
  have hfile : (fs.write e.inode content).file
      = Function.update fs.file a (some ⟨⟨content, e.mode, 1⟩, e.inode⟩) := by
    rw [write, hinode, file_update_single hs ha hone, ← hone]
  refine ⟨hfile, hs.of_update (Nat.le_refl _) hfile ?_ ?_⟩
  · intro e' he'
    cases he'
    exact hs.used a e ha
  · intro e' he' n e'' hn hfound heq
    cases he'
    exact hn (hs.single a n e e'' ha hfound heq.symm hone).symm

/-- **The mode** of a file with one name. -/
theorem chmod_file (hs : fs.Sound) (ha : fs.file a = some e) (hone : e.links = 1) (mode : Nat) :
    ∃ fs', fs.chmod a mode = some fs'
      ∧ fs'.file = Function.update fs.file a (some ⟨⟨e.content, mode, 1⟩, e.inode⟩)
      ∧ fs'.next = fs.next ∧ fs'.Sound := by
  obtain ⟨hnames, hinode⟩ := names_of_file ha
  have hfile : (fs.setMode e.inode mode).file
      = Function.update fs.file a (some ⟨⟨e.content, mode, 1⟩, e.inode⟩) := by
    rw [setMode, hinode, file_update_single hs ha hone, ← hone]
  refine ⟨fs.setMode e.inode mode, by rw [chmod, hnames, Option.map_some], hfile, rfl,
    hs.of_update (Nat.le_refl _) hfile ?_ ?_⟩
  · intro e' he'
    cases he'
    exact hs.used a e ha
  · intro e' he' n e'' hn hfound heq
    cases he'
    exact hn (hs.single a n e e'' ha hfound heq.symm hone).symm

theorem Sound.of_move (hs : fs.Sound) (hab : a ≠ b) (ha : fs.file a = some e)
    (hnext : fs'.next = fs.next)
    (hfile : fs'.file = Function.update (Function.update fs.file b (some e)) a none) :
    fs'.Sound := by
  -- a name of the new file system is one of the old, with `a` in the place of `b`
  have hback : ∀ n e', fs'.file n = some e' → n ≠ a ∧ fs.file (if n = b then a else n) = some e' := by
    intro n e' hn
    rw [hfile] at hn
    by_cases hna : n = a
    · subst hna
      rw [Function.update_self] at hn
      cases hn
    · rw [Function.update_of_ne hna] at hn
      refine ⟨hna, ?_⟩
      by_cases hnb : n = b
      · subst hnb
        rw [Function.update_self] at hn
        cases hn
        rw [if_pos rfl, ha]
      · rw [Function.update_of_ne hnb] at hn
        rw [if_neg hnb, hn]
  constructor
  · intro n e' hn
    rw [hnext]
    exact hs.used _ e' (hback n e' hn).2
  · intro n m e1 e2 hn hm heq hone
    obtain ⟨hna, hn⟩ := hback n e1 hn
    obtain ⟨hma, hm⟩ := hback m e2 hm
    have hsame := hs.single _ _ e1 e2 hn hm heq hone
    by_cases hnb : n = b <;> by_cases hmb : m = b
    · rw [hnb, hmb]
    · rw [if_pos hnb, if_neg hmb] at hsame
      exact absurd hsame.symm hma
    · rw [if_neg hnb, if_pos hmb] at hsame
      exact absurd hsame hna
    · rwa [if_neg hnb, if_neg hmb] at hsame

/-- **Renaming** onto nothing, or onto a file with no other name. -/
theorem rename_file (hs : fs.Sound) (hab : a ≠ b) (ha : fs.file a = some e)
    (hb : ∀ e', fs.file b = some e' → e'.links = 1) :
    ∃ fs', fs.rename a b = some fs'
      ∧ fs'.file = Function.update (Function.update fs.file b (some e)) a none
      ∧ fs'.next = fs.next ∧ fs'.Sound := by
  obtain ⟨hnames, hinode⟩ := names_of_file ha
  cases hbfile : fs.file b with
  | none =>
    have hbnames := file_eq_none.mp hbfile
    have hfile : ((fs.rebind b (some e.inode)).rebind a none).file
        = Function.update (Function.update fs.file b (some e)) a none := by
      funext n
      rw [file_rebind, file_rebind]
      by_cases hna : n = a
      · subst hna
        simp
      · by_cases hnb : n = b
        · subst hnb
          simp [hna, hinode]
        · simp [hna, hnb]
    exact ⟨_, by simp only [rename, hnames, hbnames], hfile, rfl, hs.of_move hab ha rfl hfile⟩
  | some e' =>
    obtain ⟨hbnames, hbinode⟩ := names_of_file hbfile
    have hone := hb e' hbfile
    have hne : e.inode ≠ e'.inode := fun heq => hab (hs.single b a e' e hbfile ha heq.symm hone).symm
    have hfile : (((fs.recount e'.inode (· - 1)).rebind b (some e.inode)).rebind a none).file
        = Function.update (Function.update fs.file b (some e)) a none := by
      funext n
      rw [file_rebind, file_rebind]
      by_cases hna : n = a
      · subst hna
        simp
      · by_cases hnb : n = b
        · subst hnb
          simp [hna, recount, hne, hinode]
        · rw [recount, file_update_single hs hbfile hone]
          simp [hna, hnb]
    exact ⟨_, by simp only [rename, hnames, hbnames, if_neg hne], hfile, rfl,
      hs.of_move hab ha rfl hfile⟩

/-- **A second name.** -/
theorem link_file (hs : fs.Sound) (ha : fs.file a = some e) (hone : e.links = 1)
    (hb : fs.file b = none) :
    ∃ fs', fs.link a b = some fs'
      ∧ fs'.file = Function.update (Function.update fs.file a
          (some (e.counting 2))) b (some (e.counting 2))
      ∧ fs'.next = fs.next ∧ fs'.Sound := by
  obtain ⟨hnames, hinode⟩ := names_of_file ha
  have hbnames := file_eq_none.mp hb
  have hab : a ≠ b := by
    rintro rfl
    rw [ha] at hb
    cases hb
  have hfile : ((fs.recount e.inode (· + 1)).rebind b (some e.inode)).file
      = Function.update (Function.update fs.file a
          (some (e.counting 2))) b (some (e.counting 2)) := by
    funext n
    rw [file_rebind]
    by_cases hnb : n = b
    · subst hnb
      simp [recount, hinode, hone]
    · rw [if_neg hnb, recount, file_update_single hs ha hone, Function.update_of_ne hnb, hinode,
        hone]
  refine ⟨_, by simp only [link, hnames, hbnames], hfile, rfl, ?_⟩
  have hback : ∀ n e', ((fs.recount e.inode (· + 1)).rebind b (some e.inode)).file n = some e' →
      e'.inode < fs.next ∧ (e'.inode = e.inode → e'.links = 2)
        ∧ (e'.inode ≠ e.inode → fs.file n = some e') := by
    intro n e' hn
    rw [hfile] at hn
    by_cases hnb : n = b
    · subst hnb
      rw [Function.update_self] at hn
      cases hn
      exact ⟨hs.used a e ha, fun _ => rfl, fun hne => absurd rfl hne⟩
    · rw [Function.update_of_ne hnb] at hn
      by_cases hna : n = a
      · subst hna
        rw [Function.update_self] at hn
        cases hn
        exact ⟨hs.used n e ha, fun _ => rfl, fun hne => absurd rfl hne⟩
      · rw [Function.update_of_ne hna] at hn
        refine ⟨hs.used n e' hn, ?_, fun _ => hn⟩
        intro heq
        exact absurd (hs.single a n e e' ha hn heq.symm hone).symm hna
  constructor
  · exact fun n e' hn => (hback n e' hn).1
  · intro n m e1 e2 hn hm heq hlinks
    obtain ⟨-, hn2, hn⟩ := hback n e1 hn
    obtain ⟨-, -, hm⟩ := hback m e2 hm
    by_cases h1 : e1.inode = e.inode
    · have htwo := hn2 h1
      omega
    · exact hs.single n m e1 e2 (hn h1) (hm (heq ▸ h1)) heq hlinks

/-- **Removing one of two names.** -/
theorem unlink_second_file (hs : fs.Sound) (hab : a ≠ b) (ha : fs.file a = some e)
    (hb : fs.file b = some e) (htwo : e.links = 2)
    (hpair : ∀ n e', fs.file n = some e' → e'.inode = e.inode → n = a ∨ n = b) :
    ∃ fs', fs.unlink a = some fs'
      ∧ fs'.file = Function.update (Function.update fs.file a none) b
          (some (e.counting 1))
      ∧ fs'.next = fs.next ∧ fs'.Sound := by
  obtain ⟨hnames, hinode⟩ := names_of_file ha
  have hfile : ((fs.recount e.inode (· - 1)).rebind a none).file
      = Function.update (Function.update fs.file a none) b
          (some (e.counting 1)) := by
    funext n
    rw [file_rebind]
    by_cases hna : n = a
    · subst hna
      simp [hab]
    · rw [if_neg hna, recount, file_update_inode]
      by_cases hnb : n = b
      · subst hnb
        simp [hb, hinode, htwo]
      · rw [Function.update_of_ne hnb, Function.update_of_ne hna]
        cases h : fs.file n with
        | none => rfl
        | some e' =>
          have hne : e'.inode ≠ e.inode := by
            intro heq
            rcases hpair n e' h heq with rfl | rfl
            · exact hna rfl
            · exact hnb rfl
          simp [hne]
  refine ⟨_, by rw [unlink, hnames, Option.map_some], hfile, rfl, ?_⟩
  have hback : ∀ n e', ((fs.recount e.inode (· - 1)).rebind a none).file n = some e' →
      e'.inode < fs.next ∧ (n = b ∨ (e'.inode ≠ e.inode ∧ fs.file n = some e'))
        ∧ (n = b → e'.inode = e.inode) := by
    intro n e' hn
    rw [hfile] at hn
    by_cases hnb : n = b
    · subst hnb
      rw [Function.update_self] at hn
      cases hn
      exact ⟨hs.used a e ha, .inl rfl, fun _ => rfl⟩
    · rw [Function.update_of_ne hnb] at hn
      by_cases hna : n = a
      · subst hna
        rw [Function.update_self] at hn
        cases hn
      · rw [Function.update_of_ne hna] at hn
        refine ⟨hs.used n e' hn, .inr ⟨?_, hn⟩, fun h => absurd h hnb⟩
        intro heq
        rcases hpair n e' hn heq with rfl | rfl
        · exact hna rfl
        · exact hnb rfl
  constructor
  · exact fun n e' hn => (hback n e' hn).1
  · intro n m e1 e2 hn hm heq hlinks
    obtain ⟨-, hn, hnb⟩ := hback n e1 hn
    obtain ⟨-, hm, hmb⟩ := hback m e2 hm
    rcases hn with rfl | ⟨hn1, hn⟩
    · rcases hm with rfl | ⟨hm1, hm⟩
      · rfl
      · exact absurd (heq.symm.trans (hnb rfl)) hm1
    · rcases hm with rfl | ⟨hm1, hm⟩
      · exact absurd (heq.trans (hmb rfl)) hn1
      · exact hs.single n m e1 e2 hn hm heq hlinks

/-- **Removing** a file with one name. -/
theorem unlink_file (hs : fs.Sound) (ha : fs.file a = some e) (hone : e.links = 1) :
    ∃ fs', fs.unlink a = some fs' ∧ fs'.file = Function.update fs.file a none
      ∧ fs'.next = fs.next ∧ fs'.Sound := by
  obtain ⟨hnames, hinode⟩ := names_of_file ha
  have hfile : ((fs.recount e.inode (· - 1)).rebind a none).file
      = Function.update fs.file a none := by
    funext n
    rw [file_rebind]
    by_cases hna : n = a
    · subst hna
      simp
    · rw [if_neg hna, recount, file_update_single hs ha hone, Function.update_of_ne hna,
        Function.update_of_ne hna]
  refine ⟨_, by rw [unlink, hnames, Option.map_some], hfile, rfl,
    hs.of_update (Nat.le_refl _) hfile ?_ ?_⟩
  · intro e' he'
    cases he'
  · intro e' he'
    cases he'

end Fs

end FileSystem
