import ThreeXhaust.Chord.Jobs.Line
import Mathlib.Data.List.Count
import Mathlib.Data.List.InsertIdx
import Mathlib.Tactic.Common

/-!
# What the adoption of a commit keeps

`Kept` is the accounting between two commits: `#active` is the number of runs that are not blocked,
`#keys` and the runs' keys agree, and `running` has one entry of each run. A change keeps it when it
finds its run as it was decided for (`Fits`), and when what it adds is new (`Staged`).

Inside a commit that finishes a run, the run's key may name its successor already: `Kept` has a
parameter for the run that is leaving.
-/

namespace ThreeXhaust.Chord.Jobs

variable {J : Type} {d : JobDefinition J} {s : Records J} {leaving : Option Nat} {r : Nat}

variable {f : JobRun J → JobRun J}

namespace Records

/-- Whether run `r` counts: a blocked one does not. -/
def counts (s : Records J) (r : Nat) : Bool :=
  (s.run r).phase ≠ .blocked

/-- **The accounting of a job's records**, while run `leaving` is about to leave. -/
structure Kept (s : Records J) (leaving : Option Nat) : Prop where
  nodup : s.runs.Nodup
  made : ∀ r ∈ s.runs, r < s.made
  keysRun : ∀ key r, s.keys key = some r → r ∈ s.runs ∧ (s.run r).key = some key
  runKeys : ∀ r ∈ s.runs, leaving ≠ some r → ∀ key, (s.run r).key = some key → s.keys key = some r
  active : s.active = (s.runs.countP s.counts : Nat)
  entries : s.running.map some = s.runs.map fun r => (s.run r).entry
  owner : ∀ r ∈ s.runs, ∀ e, (s.run r).entry = some e → e.id = r
  tags : (s.running.map (·.tag)).Nodup
  tagged : ∀ e ∈ s.running, e.tag < s.tags

@[simp] theorem setRun_run (s : Records J) (r : Nat) (f : JobRun J → JobRun J) (x : Nat) :
    (s.setRun r f).run x = if x = r then f (s.run r) else s.run x := by
  simp only [setRun, Function.update_apply]

@[simp] theorem setRun_runs (s : Records J) (r : Nat) (f : JobRun J → JobRun J) :
    (s.setRun r f).runs = s.runs := rfl

/-! ## A list with one value changed -/

theorem countP_change {p q : Nat → Bool} {list : List Nat} (hnodup : list.Nodup) (hr : r ∈ list)
    (hother : ∀ x ∈ list, x ≠ r → q x = p x) :
    list.countP q + (p r).toNat = list.countP p + (q r).toNat := by
  have htoNat (b : Bool) : (if b then 1 else 0) = b.toNat := by
    cases b <;> rfl
  induction list with
  | nil => cases hr
  | cons x rest ih =>
    obtain ⟨hx, hrest⟩ := List.nodup_cons.mp hnodup
    rw [List.countP_cons, List.countP_cons, htoNat, htoNat]
    by_cases heq : x = r
    · subst heq
      have hsame : rest.countP q = rest.countP p :=
        List.countP_congr fun y hy => by
          rw [hother y (List.mem_cons_of_mem _ hy) fun h => hx (h ▸ hy)]
      omega
    · have hmem : r ∈ rest := (List.mem_cons.mp hr).resolve_left (Ne.symm heq)
      have := ih hrest hmem fun y hy => hother y (List.mem_cons_of_mem _ hy)
      rw [hother x List.mem_cons_self heq]
      omega

/-! ## Changing one run's object -/

theorem Kept.change (h : s.Kept leaving) (r : Nat) (active counted : Int)
    (hkey : (f (s.run r)).key = (s.run r).key) (hentry : (f (s.run r)).entry = (s.run r).entry)
    (hactive : r ∈ s.runs →
      active + (s.counts r).toNat = s.active + ((s.setRun r f).counts r).toNat)
    (hnot : r ∉ s.runs → active = s.active) :
    Kept { s.setRun r f with active, counted } leaving := by
  have hkeys (x : Nat) : ((s.setRun r f).run x).key = (s.run x).key := by
    rw [setRun_run]
    split
    · next heq => rw [hkey, heq]
    · rfl
  have hentries (x : Nat) : ((s.setRun r f).run x).entry = (s.run x).entry := by
    rw [setRun_run]
    split
    · next heq => rw [hentry, heq]
    · rfl
  have hother (x : Nat) (hx : x ≠ r) : (s.setRun r f).counts x = s.counts x := by
    unfold counts
    rw [setRun_run, if_neg hx]
  refine ⟨h.nodup, h.made, ?_, ?_, ?_, ?_, ?_, h.tags, h.tagged⟩
  · intro key x hx
    obtain ⟨hmem, hk⟩ := h.keysRun key x hx
    exact ⟨hmem, (hkeys x).trans hk⟩
  · intro x hx hne key hk
    exact h.runKeys x hx hne key ((hkeys x).symm.trans hk)
  · show active = ((s.runs.countP (s.setRun r f).counts : Nat) : Int)
    by_cases hr : r ∈ s.runs
    · have hcount := countP_change h.nodup hr fun x _ hx => hother x hx
      have := hactive hr
      have := h.active
      omega
    · rw [hnot hr, h.active]
      congr 1
      refine List.countP_congr fun x hx => ?_
      rw [hother x fun heq => hr (heq ▸ hx)]
  · show s.running.map some = s.runs.map fun x => ((s.setRun r f).run x).entry
    simp only [hentries, h.entries]
  · intro x hx e he
    exact h.owner x hx e ((hentries x).symm.trans he)

theorem Kept.setRun (h : s.Kept leaving) (r : Nat) (hkey : (f (s.run r)).key = (s.run r).key)
    (hentry : (f (s.run r)).entry = (s.run r).entry)
    (hphase : r ∈ s.runs → ((f (s.run r)).phase = .blocked ↔ (s.run r).phase = .blocked)) :
    (s.setRun r f).Kept leaving := by
  refine h.change r s.active s.counted hkey hentry (fun hr => ?_) fun _ => rfl
  have hcounts : (s.setRun r f).counts r = s.counts r := by
    simp only [counts, setRun_run, if_pos, ne_eq, hphase hr]
  rw [hcounts]

/-! ## `running` -/

@[simp] theorem showEntry_runs (s : Records J) (d : JobDefinition J) (r : Nat) :
    (s.showEntry d r).runs = s.runs := rfl

@[simp] theorem showEntry_key (s : Records J) (d : JobDefinition J) (r x : Nat) :
    ((s.showEntry d r).run x).key = (s.run x).key := by
  simp only [showEntry, setRun_run]
  split
  · next heq => subst heq; rfl
  · rfl

@[simp] theorem showEntry_phase (s : Records J) (d : JobDefinition J) (r x : Nat) :
    ((s.showEntry d r).run x).phase = (s.run x).phase := by
  simp only [showEntry, setRun_run]
  split
  · next heq => subst heq; rfl
  · rfl

theorem showEntry_entry (s : Records J) (d : JobDefinition J) (r x : Nat) :
    ((s.showEntry d r).run x).entry = if x = r then some (s.entryOf d r) else (s.run x).entry := by
  simp only [showEntry, setRun_run]
  split <;> rfl

/-- A run of the job has its entry at its place. -/
theorem Kept.entryAt (h : s.Kept leaving) {i : Nat} (hi : s.runs[i]? = some r) :
    ∃ e, s.running[i]? = some e ∧ some e = (s.run r).entry := by
  have hplace : (s.running[i]?).map some = some (s.run r).entry := by
    rw [← List.getElem?_map, h.entries, List.getElem?_map, hi]
    rfl
  cases he : s.running[i]? with
  | none => rw [he] at hplace; cases hplace
  | some e => rw [he] at hplace; exact ⟨e, rfl, Option.some_inj.mp hplace⟩

/-- **A run's entry is replaced at its place**, and nothing throws. -/
theorem Kept.replaceEntry (h : s.Kept leaving) (hr : r ∈ s.runs) :
    (s.replaceEntry d r).2 = true ∧ (s.replaceEntry d r).1.Kept leaving := by
  obtain ⟨i, hi⟩ := List.mem_iff_getElem?.mp hr
  obtain ⟨e, he, hentry⟩ := h.entryAt hi
  have hreplace : Running.replace s.running (s.run r).entry (s.entryOf d r) =
      some (s.running.set i (s.entryOf d r)) := by
    rw [← hentry]
    exact Running.replace_mem h.tags he
  unfold Records.replaceEntry
  rw [hreplace]
  refine ⟨rfl, ?_⟩
  refine ⟨h.nodup, h.made, ?_, ?_, ?_, ?_, ?_, ?_, ?_⟩
  · intro key x hx
    obtain ⟨hmem, hk⟩ := h.keysRun key x hx
    exact ⟨hmem, (showEntry_key s d r x).trans hk⟩
  · intro x hx hne key hk
    exact h.runKeys x hx hne key ((showEntry_key s d r x).symm.trans hk)
  · refine h.active.trans ?_
    congr 1
    refine List.countP_congr fun x _ => ?_
    simp only [counts, showEntry_phase]
  · refine List.ext_getElem? fun j => ?_
    have hold := congrArg (·[j]?) h.entries
    simp only [List.getElem?_map] at hold
    simp only [List.getElem?_map, List.getElem?_set, showEntry_runs, showEntry_entry]
    split
    · next hij =>
      subst hij
      rw [if_pos (List.getElem?_eq_some_iff.mp he).1, hi]
      simp
    · next hij =>
      rw [hold]
      cases hx : s.runs[j]? with
      | none => rfl
      | some x =>
        have hne : x ≠ r := by
          rintro rfl
          obtain ⟨hj, hjx⟩ := List.getElem?_eq_some_iff.mp hx
          obtain ⟨hi', hix⟩ := List.getElem?_eq_some_iff.mp hi
          exact hij ((h.nodup.getElem_inj_iff).mp (hix.trans hjx.symm))
        simp only [Option.map_some, if_neg hne]
  · intro x hx e' he'
    rw [show _ = ((s.showEntry d r).run x).entry from rfl, showEntry_entry] at he'
    split at he'
    · next heq => cases he'; exact heq.symm
    · exact h.owner x hx e' he'
  · rw [List.map_set]
    show ((s.running.map (·.tag)).set i s.tags).Nodup
    refine List.Nodup.set h.tags fun hmem => ?_
    obtain ⟨e', he', htag⟩ := List.mem_map.mp hmem
    have := h.tagged e' he'
    omega
  · intro e' he'
    show e'.tag < s.tags + 1
    rcases List.mem_or_eq_of_mem_set he' with hold | rfl
    · have := h.tagged e' hold
      omega
    · exact Nat.lt_succ_self _

/-! ## Runs that come and go -/

@[simp] theorem join_keys (s : Records J) (r : Nat) (key : String) :
    (s.join r).keys key = if (s.run r).key = some key then some r else s.keys key := by
  unfold join
  cases (s.run r).key with
  | none => simp
  | some own =>
    show Function.update s.keys own (some r) key = _
    rw [Function.update_apply]
    simp only [Option.some_inj, eq_comm]

theorem count_eq (s : Records J) (r : Nat) :
    s.count r =
      { s with
        active := s.active + (s.counts r).toNat
        counted := s.counted + (s.counts r).toNat } := by
  unfold count counts
  split
  · next h => simp [h]
  · next h => simp [h]

/-- **A new run joins**: it is in no map yet, and its key is free or the leaving run's. -/
theorem Kept.insert (h : s.Kept leaving) (hr : r ∉ s.runs) (hmade : r < s.made)
    (hkey : ∀ key, (s.run r).key = some key → s.keys key = none ∨ s.keys key = leaving) :
    (s.insert d r).Kept leaving := by
  have hcount : ((s.join r).count r).run = s.run ∧ ((s.join r).count r).runs = s.runs ++ [r] ∧
      ((s.join r).count r).keys = (s.join r).keys ∧ ((s.join r).count r).made = s.made ∧
      ((s.join r).count r).running = s.running ∧ ((s.join r).count r).tags = s.tags ∧
      ((s.join r).count r).active = s.active + (s.counts r).toNat := by
    rw [count_eq]
    exact ⟨rfl, rfl, rfl, rfl, rfl, rfl, rfl⟩
  unfold Records.insert
  generalize (s.join r).count r = t at hcount
  obtain ⟨hrun, hruns, hkeys', hmade', hrunning, htags, hactive⟩ := hcount
  have hfresh (x : Nat) (hx : x ∈ s.runs) : x ≠ r := fun heq => hr (heq ▸ hx)
  unfold addEntry Running.add
  refine ⟨?_, ?_, ?_, ?_, ?_, ?_, ?_, ?_, ?_⟩
  · show t.runs.Nodup
    rw [hruns]
    exact List.nodup_append.mpr ⟨h.nodup, List.nodup_singleton _, fun x hx y hy => by
      cases List.mem_singleton.mp hy
      exact hfresh x hx⟩
  · show ∀ x ∈ t.runs, x < t.made
    intro x hx
    rw [hruns] at hx
    rw [hmade']
    rcases List.mem_append.mp hx with hx | hx
    · exact h.made x hx
    · cases List.mem_singleton.mp hx
      exact hmade
  · show ∀ key x, t.keys key = some x → x ∈ t.runs ∧ ((t.showEntry d r).run x).key = some key
    intro key x hx
    rw [hkeys', join_keys] at hx
    rw [showEntry_key, hrun, hruns]
    split at hx
    · next hown =>
      cases hx
      exact ⟨List.mem_append_right _ (List.mem_singleton_self _), hown⟩
    · obtain ⟨hmem, hk⟩ := h.keysRun key x hx
      exact ⟨List.mem_append_left _ hmem, hk⟩
  · show ∀ x ∈ t.runs, leaving ≠ some x → ∀ key, ((t.showEntry d r).run x).key = some key →
      t.keys key = some x
    intro x hx hne key hk
    rw [showEntry_key, hrun] at hk
    rw [hruns] at hx
    rw [hkeys', join_keys]
    rcases List.mem_append.mp hx with hx | hx
    · have hold := h.runKeys x hx hne key hk
      rw [if_neg]
      · exact hold
      · intro hown
        -- the key was free, or the leaving run's
        rcases hkey key hown with hfree | hleaves
        · rw [hfree] at hold; cases hold
        · exact hne (hleaves.symm.trans hold)
    · cases List.mem_singleton.mp hx
      rw [if_pos hk]
  · show t.active = (t.runs.countP (t.showEntry d r).counts : Nat)
    have hsame : (t.showEntry d r).counts = s.counts := by
      funext x
      simp only [counts, showEntry_phase, hrun]
    rw [hsame, hruns, hactive, h.active, List.countP_append, List.countP_singleton]
    cases s.counts r <;> simp
  · show (t.running ++ [t.entryOf d r]).map some = t.runs.map fun x => ((t.showEntry d r).run x).entry
    rw [hruns, hrunning, List.map_append, List.map_append, h.entries]
    congr 1
    · refine List.map_congr_left fun x hx => ?_
      rw [showEntry_entry, if_neg (hfresh x hx), hrun]
    · simp only [List.map_cons, List.map_nil, showEntry_entry, if_pos]
  · show ∀ x ∈ t.runs, ∀ e, ((t.showEntry d r).run x).entry = some e → e.id = x
    intro x hx e he
    rw [showEntry_entry] at he
    split at he
    · next heq => cases he; exact heq.symm
    · next hne =>
      rw [hruns] at hx
      rw [hrun] at he
      refine h.owner x ((List.mem_append.mp hx).resolve_right fun hx => ?_) e he
      exact hne (List.mem_singleton.mp hx)
  · show ((t.running ++ [t.entryOf d r]).map (·.tag)).Nodup
    rw [hrunning, List.map_append]
    refine List.nodup_append.mpr ⟨h.tags, List.nodup_singleton _, fun tag htag new hnew => ?_⟩
    obtain ⟨e, he, rfl⟩ := List.mem_map.mp htag
    have hlt := h.tagged e he
    have htag' : new = s.tags := by
      rw [List.mem_singleton.mp hnew, ← htags]
      rfl
    omega
  · show ∀ e ∈ t.running ++ [t.entryOf d r], e.tag < t.tags + 1
    intro e he
    rw [hrunning] at he
    rw [htags]
    rcases List.mem_append.mp he with he | he
    · have := h.tagged e he
      omega
    · cases List.mem_singleton.mp he
      show t.tags < s.tags + 1
      omega

theorem forget_keyless (hkey : (s.run r).key = none) : (s.forget r).keys = s.keys := by
  simp [Records.forget, Records.setRun, hkey]

theorem forget_keyed {own : String} (hkey : (s.run r).key = some own) :
    (s.forget r).keys = if s.keys own = some r then Function.update s.keys own none else s.keys := by
  simp [Records.forget, Records.setRun, hkey]

/-- **A run leaves**: with it the one that was about to. -/
theorem Kept.forget (h : s.Kept leaving) (hr : r ∈ s.runs) (active counted : Int)
    (hactive : active + (s.counts r).toNat = s.active) :
    Kept { s.forget r with active, counted } leaving := by
  obtain ⟨hlt, hget⟩ : ∃ hlt : s.runs.idxOf r < s.runs.length, s.runs[s.runs.idxOf r] = r :=
    ⟨List.idxOf_lt_length_iff.mpr hr, List.getElem_idxOf _⟩
  set i := s.runs.idxOf r with hidx
  have hruns : s.runs.erase r = s.runs.eraseIdx i := List.erase_eq_eraseIdx_of_idxOf hidx.symm
  obtain ⟨e, he, hentry⟩ := h.entryAt (List.getElem?_eq_some_iff.mpr ⟨hlt, hget⟩)
  -- the entry is found by its tag, at the place of the run
  have hremove : Running.remove s.running (s.run r).entry = s.running.eraseIdx i := by
    rw [← hentry]
    exact Running.remove_mem h.tags he
  have hmem (x : Nat) : x ∈ s.runs.erase r ↔ x ≠ r ∧ x ∈ s.runs := h.nodup.mem_erase_iff
  have hrun (x : Nat) (hx : x ≠ r) : (s.forget r).run x = s.run x := by
    unfold Records.forget
    exact (setRun_run _ r _ x).trans (if_neg hx)
  have hkeys (key : String) (x : Nat) :
      (s.forget r).keys key = some x ↔ s.keys key = some x ∧ x ≠ r := by
    have hown (hx : s.keys key = some r) : (s.run r).key = some key := (h.keysRun key r hx).2
    cases hkey : (s.run r).key with
    | some own =>
      rw [forget_keyed hkey]
      split
      · next hnames =>
        rw [Function.update_apply]
        split
        · next heq =>
          subst heq
          rw [hnames]
          simp [eq_comm]
        · next hne =>
          refine ⟨fun hx => ⟨hx, ?_⟩, fun hx => hx.1⟩
          rintro rfl
          exact hne (Option.some_inj.mp ((hown hx).symm.trans hkey))
      · next hnames =>
        refine ⟨fun hx => ⟨hx, ?_⟩, fun hx => hx.1⟩
        rintro rfl
        rw [hown hx] at hkey
        cases hkey
        exact hnames hx
    | none =>
      rw [forget_keyless hkey]
      refine ⟨fun hx => ⟨hx, ?_⟩, fun hx => hx.1⟩
      rintro rfl
      rw [hown hx] at hkey
      cases hkey
  refine ⟨?_, ?_, ?_, ?_, ?_, ?_, ?_, ?_, ?_⟩
  · exact h.nodup.erase r
  · exact fun x hx => h.made x ((hmem x).mp hx).2
  · intro key x hx
    obtain ⟨hold, hne⟩ := (hkeys key x).mp hx
    obtain ⟨hx', hk⟩ := h.keysRun key x hold
    refine ⟨(hmem x).mpr ⟨hne, hx'⟩, ?_⟩
    rw [show _ = (s.forget r).run x from rfl, hrun x hne]
    exact hk
  · intro x hx hne key hk
    obtain ⟨hxr, hx'⟩ := (hmem x).mp hx
    rw [show _ = (s.forget r).run x from rfl, hrun x hxr] at hk
    exact (hkeys key x).mpr ⟨h.runKeys x hx' hne key hk, hxr⟩
  · show active = ((s.runs.erase r).countP (s.forget r).counts : Nat)
    have hsame : (s.runs.erase r).countP (s.forget r).counts = (s.runs.erase r).countP s.counts := by
      refine List.countP_congr fun x hx => ?_
      unfold counts
      rw [hrun x ((hmem x).mp hx).1]
    rw [hsame, List.countP_erase]
    have hcounted := h.active
    have hpos : s.counts r = true → 0 < s.runs.countP s.counts := fun hcounts =>
      List.countP_pos_iff.mpr ⟨r, hr, hcounts⟩
    cases hcounts : s.counts r with
    | true =>
      have := hpos hcounts
      rw [hcounts] at hactive
      rw [if_pos ⟨hr, rfl⟩]
      simp only [Bool.toNat_true] at hactive
      omega
    | false =>
      rw [hcounts] at hactive
      rw [if_neg (by simp)]
      simp only [Bool.toNat_false] at hactive
      omega
  · show (Running.remove s.running (s.run r).entry).map some =
      (s.runs.erase r).map fun x => ((s.forget r).run x).entry
    have hsame : ((s.runs.erase r).map fun x => ((s.forget r).run x).entry) =
        (s.runs.erase r).map fun x => (s.run x).entry :=
      List.map_congr_left fun x hx => by rw [hrun x ((hmem x).mp hx).1]
    rw [hsame, hremove, hruns, ← List.eraseIdx_map, ← List.eraseIdx_map, h.entries]
  · intro x hx e' he'
    obtain ⟨hxr, hx'⟩ := (hmem x).mp hx
    rw [show _ = (s.forget r).run x from rfl, hrun x hxr] at he'
    exact h.owner x hx' e' he'
  · show ((Running.remove s.running (s.run r).entry).map (·.tag)).Nodup
    rw [hremove, ← List.eraseIdx_map]
    exact h.tags.eraseIdx i
  · show ∀ e' ∈ Running.remove s.running (s.run r).entry, e'.tag < s.tags
    intro e' he'
    rw [hremove] at he'
    exact h.tagged e' (List.mem_of_mem_eraseIdx he')

theorem Kept.left (h : s.Kept leaving) (hgone : ∀ f, leaving = some f → f ∉ s.runs) : s.Kept none :=
  { h with
    runKeys := fun r hr _ => h.runKeys r hr fun hleaving => hgone r hleaving hr }

theorem Kept.leave (h : s.Kept none) : s.Kept leaving :=
  { h with runKeys := fun r hr _ => h.runKeys r hr nofun }

/-! ## What no change of a record touches -/

structure SameRuns (s t : Records J) : Prop where
  made : t.made = s.made
  key : ∀ r, (t.run r).key = (s.run r).key
  waiters : ∀ r, (t.run r).waiters = (s.run r).waiters
  started : ∀ r, (t.run r).started = (s.run r).started

theorem SameRuns.refl : SameRuns s s :=
  ⟨rfl, fun _ => rfl, fun _ => rfl, fun _ => rfl⟩

theorem SameRuns.trans {t u : Records J} (h : SameRuns s t) (h' : SameRuns t u) : SameRuns s u :=
  ⟨h'.made.trans h.made, fun r => (h'.key r).trans (h.key r),
    fun r => (h'.waiters r).trans (h.waiters r), fun r => (h'.started r).trans (h.started r)⟩

theorem SameRuns.ofRun {t : Records J} (hmade : t.made = s.made) (hrun : t.run = (s.setRun r f).run)
    (hkey : (f (s.run r)).key = (s.run r).key)
    (hwaiters : (f (s.run r)).waiters = (s.run r).waiters)
    (hstarted : (f (s.run r)).started = (s.run r).started) : SameRuns s t := by
  refine ⟨hmade, fun x => ?_, fun x => ?_, fun x => ?_⟩ <;>
  · rw [hrun, setRun_run]
    split
    · next heq => subst heq; assumption
    · rfl

theorem SameRuns.showEntry (d : JobDefinition J) (r : Nat) : SameRuns s (s.showEntry d r) :=
  .ofRun (r := r) (f := fun run => { run with entry := some (s.entryOf d r) }) rfl rfl rfl rfl rfl

theorem SameRuns.replaceEntry (d : JobDefinition J) (r : Nat) :
    SameRuns s (s.replaceEntry d r).1 := by
  have h : SameRuns s (s.showEntry d r) := .showEntry d r
  unfold Records.replaceEntry
  split <;> exact ⟨h.made, h.key, h.waiters, h.started⟩

theorem SameRuns.insert (d : JobDefinition J) (r : Nat) : SameRuns s (s.insert d r) := by
  have hcount : SameRuns s ((s.join r).count r) := by
    rw [count_eq]
    exact ⟨rfl, fun _ => rfl, fun _ => rfl, fun _ => rfl⟩
  have h := hcount.trans (.showEntry d r)
  exact ⟨h.made, h.key, h.waiters, h.started⟩

theorem SameRuns.edit (d : JobDefinition J) (r : Nat) (active counted : Int)
    (hkey : (f (s.run r)).key = (s.run r).key)
    (hwaiters : (f (s.run r)).waiters = (s.run r).waiters)
    (hstarted : (f (s.run r)).started = (s.run r).started) :
    SameRuns s (s.edit d r f active counted).1 := by
  have hrun : SameRuns s
      { s.setRun r f with active := s.active + active, counted := s.counted + counted } :=
    .ofRun (r := r) (f := f) rfl rfl hkey hwaiters hstarted
  exact hrun.trans (.replaceEntry d r)

theorem SameRuns.adopt (d : JobDefinition J) (change : Adopted J) :
    SameRuns s (s.adopt d change).1 := by
  have hforget (r : Nat) : SameRuns s (s.forget r) :=
    .ofRun (r := r) (f := fun run => { run with entry := none, state := none }) rfl rfl rfl rfl rfl
  cases change with
  | create r => exact .insert d r
  | restore r => exact .insert d r
  | update r fields => exact .edit d r _ _ rfl rfl rfl
  | outcome r outcome => exact .edit d r _ _ rfl rfl rfl
  | block r reason => exact .edit d r _ _ rfl rfl rfl
  | unblock r phase => exact .edit d r _ _ rfl rfl rfl
  | delete r =>
    have h := hforget r
    exact ⟨h.made, h.key, h.waiters, h.started⟩
  | drop r => exact hforget r
  | state r value =>
    show SameRuns s (s.changeState d r value).1
    unfold changeState
    split
    · exact .edit d r _ _ rfl rfl rfl
    · exact .ofRun (r := r) (f := fun run => { run with state := some value }) rfl rfl rfl rfl rfl

/-! ## What a change does to the maps -/

section Maps

variable (d : JobDefinition J) (s : Records J) (r : Nat)

@[simp] theorem replaceEntry_runs : (s.replaceEntry d r).1.runs = s.runs := by
  unfold replaceEntry
  split <;> rfl

@[simp] theorem replaceEntry_keys : (s.replaceEntry d r).1.keys = s.keys := by
  unfold replaceEntry
  split <;> rfl

@[simp] theorem replaceEntry_active : (s.replaceEntry d r).1.active = s.active := by
  unfold replaceEntry
  split <;> rfl

@[simp] theorem replaceEntry_counted : (s.replaceEntry d r).1.counted = s.counted := by
  unfold replaceEntry
  split <;> rfl

@[simp] theorem replaceEntry_phase (x : Nat) :
    ((s.replaceEntry d r).1.run x).phase = (s.run x).phase := by
  unfold replaceEntry
  split <;> exact showEntry_phase s d r x

@[simp] theorem insert_runs : (s.insert d r).runs = s.runs ++ [r] := by
  show ((s.join r).count r).runs = _
  rw [count_eq]
  rfl

@[simp] theorem insert_keys (key : String) :
    (s.insert d r).keys key = if (s.run r).key = some key then some r else s.keys key := by
  rw [← join_keys]
  show ((s.join r).count r).keys key = _
  rw [count_eq]

theorem forget_keys (key : String) :
    (s.forget r).keys key = s.keys key ∨ (s.forget r).keys key = none := by
  cases hkey : (s.run r).key with
  | none => exact .inl (by rw [forget_keyless hkey])
  | some own =>
    rw [forget_keyed hkey]
    split
    · rw [Function.update_apply]
      split
      · exact .inr rfl
      · exact .inl rfl
    · exact .inl rfl

end Maps

end Records

/-! ## Changes that are right where they are adopted -/

namespace Adopted

/-- **The change finds its run still as it was decided for**: one of the job's runs, in a phase the
change may leave. What a commit adds, and what a reload unblocks, is checked on the line. -/
def Fits (s : Records J) : Adopted J → Prop
  | .update r fields =>
    r ∈ s.runs ∧ (fields.phase.getD (s.run r).phase = .blocked ↔ (s.run r).phase = .blocked)
  | .outcome r _ | .block r _ | .delete r => r ∈ s.runs ∧ (s.run r).phase ≠ .blocked
  | .drop r => r ∈ s.runs ∧ (s.run r).phase = .blocked
  | .create _ | .restore _ | .unblock _ _ | .state _ _ => True

instance (s : Records J) (change : Adopted J) : Decidable (change.Fits s) := by
  unfold Fits
  split <;> infer_instance

def new : Adopted J → Option Nat
  | .create r | .restore r => some r
  | _ => none

def unblocked : Adopted J → Option Nat
  | .unblock r _ => some r
  | _ => none

def gone : Adopted J → Option Nat
  | .delete r | .drop r => some r
  | _ => none

def uncounts : Adopted J → Bool
  | .delete _ | .block _ _ => true
  | _ => false

end Adopted

def Fitting (d : JobDefinition J) (s : Records J) : List (Adopted J) → Prop
  | [] => True
  | change :: rest => change.Fits s ∧ Fitting d (s.adopt d change).1 rest

instance (d : JobDefinition J) (s : Records J) (changes : List (Adopted J)) :
    Decidable (Fitting d s changes) := by
  induction changes generalizing s with
  | nil => exact isTrue trivial
  | cons change rest ih => exact inferInstanceAs (Decidable (_ ∧ _))

/-- **What a commit adds is new, and what it unblocks is blocked**: the staged changes of a transaction
before their adoption, `leaving` the run whose key they may take. -/
structure Staged (s : Records J) (leaving : Option Nat) (changes : List (Adopted J)) : Prop where
  nodup : (changes.filterMap Adopted.new).Nodup
  fresh : ∀ r ∈ changes.filterMap Adopted.new, r < s.made ∧ r ∉ s.runs
  keys : ((changes.filterMap Adopted.new).filterMap fun r => (s.run r).key).Nodup
  free : ∀ r ∈ changes.filterMap Adopted.new, ∀ key, (s.run r).key = some key →
    s.keys key = none ∨ s.keys key = leaving
  once : (changes.filterMap Adopted.unblocked).Nodup
  blocked : ∀ r phase, .unblock r phase ∈ changes →
    r ∈ s.runs ∧ (s.run r).phase = .blocked ∧ phase ≠ .blocked
  /-- A transaction that unblocks runs does nothing else. -/
  alone : (∃ r phase, .unblock r phase ∈ changes) → ∀ change ∈ changes, change.unblocked.isSome

/-! ## One change, and a commit -/

namespace Records

theorem Kept.edit (h : s.Kept leaving) (hr : r ∈ s.runs) {active counted : Int}
    (hkey : (f (s.run r)).key = (s.run r).key) (hentry : (f (s.run r)).entry = (s.run r).entry)
    (hactive : active + (s.counts r).toNat = (decide ((f (s.run r)).phase ≠ .blocked)).toNat) :
    (s.edit d r f active counted).2 = true ∧ (s.edit d r f active counted).1.Kept leaving := by
  have hcounts : (s.setRun r f).counts r = decide ((f (s.run r)).phase ≠ .blocked) := by
    simp only [counts, setRun_run, if_pos]
  have hkept : Kept
      { s.setRun r f with active := s.active + active, counted := s.counted + counted } leaving := by
    refine h.change r _ _ hkey hentry (fun _ => ?_) (fun hnot => absurd hr hnot)
    rw [hcounts]
    omega
  exact hkept.replaceEntry hr

/-- **One change keeps the accounting**, and does not throw. -/
theorem Kept.adopt (h : s.Kept leaving) {change : Adopted J} {rest : List (Adopted J)}
    (hstaged : Staged s leaving (change :: rest)) (hfits : change.Fits s) :
    (s.adopt d change).2 = true ∧ (s.adopt d change).1.Kept leaving := by
  have hinsert {r : Nat} (hnew : change.new = some r) : (s.insert d r).Kept leaving := by
    have hmem : r ∈ (change :: rest).filterMap Adopted.new := by
      rw [List.filterMap_cons_some hnew]
      exact List.mem_cons_self
    exact h.insert (hstaged.fresh r hmem).2 (hstaged.fresh r hmem).1 (hstaged.free r hmem)
  cases change with
  | create r => exact ⟨rfl, hinsert rfl⟩
  | restore r => exact ⟨rfl, hinsert rfl⟩
  | update r fields =>
    refine h.edit hfits.1 rfl rfl ?_
    have hsame : decide ((fields.assign (s.run r)).phase ≠ .blocked) = s.counts r := by
      unfold counts RunFields.assign
      simp only [ne_eq, hfits.2]
    rw [hsame, Int.zero_add]
  | outcome r outcome =>
    refine h.edit hfits.1 rfl rfl ?_
    simp [counts, hfits.2]
  | block r reason =>
    refine h.edit hfits.1 rfl rfl ?_
    simp [counts, hfits.2]
  | unblock r phase =>
    obtain ⟨hr, hblocked, hphase⟩ := hstaged.blocked r phase List.mem_cons_self
    refine h.edit hr rfl rfl ?_
    simp [counts, hblocked, hphase]
  | delete r =>
    refine ⟨rfl, h.forget hfits.1 _ s.counted ?_⟩
    simp [counts, hfits.2]
  | drop r =>
    refine ⟨rfl, h.forget hfits.1 _ s.counted ?_⟩
    simp [counts, hfits.2]
  | state r value =>
    show (s.changeState d r value).2 = true ∧ (s.changeState d r value).1.Kept leaving
    unfold changeState
    split
    · next hr =>
      refine h.edit hr.1 rfl rfl ?_
      simp [counts]
    · have hset : (s.setRun r fun run => { run with state := some value }).Kept leaving :=
        h.setRun r rfl rfl fun _ => Iff.rfl
      exact ⟨rfl, hset⟩

attribute [local simp] Records.adopt Adopted.gone Adopted.new in
theorem mem_adopt_runs (d : JobDefinition J) (s : Records J) (change : Adopted J) (x : Nat) :
    x ∈ (s.adopt d change).1.runs ↔
      x ∈ (match change.gone with | some r => s.runs.erase r | none => s.runs) ∨
        change.new = some x := by
  have hedit (r : Nat) (f : JobRun J → JobRun J) (active counted : Int) :
      (s.edit d r f active counted).1.runs = s.runs :=
    replaceEntry_runs d _ r
  cases change with
  | create r | restore r => simp [eq_comm]
  | update r fields | outcome r outcome | block r reason | unblock r phase => simp [hedit]
  | delete r | drop r => simp [Records.forget]
  | state r value =>
    have hstate : (s.changeState d r value).1.runs = s.runs := by
      unfold changeState
      split
      · exact hedit _ _ _ _
      · rfl
    simp [hstate]

theorem adopt_keys (d : JobDefinition J) (s : Records J) (change : Adopted J) (key : String) :
    (∃ r, change.new = some r ∧ (s.run r).key = some key) ∨
      (s.adopt d change).1.keys key = s.keys key ∨ (s.adopt d change).1.keys key = none := by
  have hedit (r : Nat) (f : JobRun J → JobRun J) (active counted : Int) :
      (s.edit d r f active counted).1.keys = s.keys :=
    replaceEntry_keys d _ r
  have hinsert (r : Nat) : (s.run r).key = some key ∨ (s.insert d r).keys key = s.keys key := by
    rw [insert_keys]
    split
    · next h => exact .inl h
    · exact .inr rfl
  cases change with
  | create r => exact (hinsert r).imp (fun h => ⟨r, rfl, h⟩) .inl
  | restore r => exact (hinsert r).imp (fun h => ⟨r, rfl, h⟩) .inl
  | update r fields => exact .inr (.inl (congrFun (hedit _ _ _ _) key))
  | outcome r outcome => exact .inr (.inl (congrFun (hedit _ _ _ _) key))
  | block r reason => exact .inr (.inl (congrFun (hedit _ _ _ _) key))
  | unblock r phase => exact .inr (.inl (congrFun (hedit _ _ _ _) key))
  | delete r => exact .inr (forget_keys s r key)
  | drop r => exact .inr (forget_keys s r key)
  | state r value =>
    have hstate : (s.changeState d r value).1.keys = s.keys := by
      unfold changeState
      split
      · exact hedit _ _ _ _
      · rfl
    exact .inr (.inl (congrFun hstate key))

/-- **The rest of a commit is as it was staged**, after its first change. -/
theorem staged_tail {change : Adopted J} {rest : List (Adopted J)}
    (h : Staged s leaving (change :: rest)) : Staged (s.adopt d change).1 leaving rest := by
  have hsame : SameRuns s (s.adopt d change).1 := .adopt d change
  have hsub (r : Nat) (hr : r ∈ rest.filterMap Adopted.new) :
      r ∈ (change :: rest).filterMap Adopted.new := by
    rw [List.filterMap_cons]
    split
    · exact hr
    · exact List.mem_cons_of_mem _ hr
  -- what the first change adds is not added again
  have hapart (r : Nat) (hr : r ∈ rest.filterMap Adopted.new) : change.new ≠ some r := by
    intro hnew
    have hnodup := h.nodup
    rw [List.filterMap_cons_some hnew] at hnodup
    exact (List.nodup_cons.mp hnodup).1 hr
  refine ⟨?_, ?_, ?_, ?_, ?_, ?_, ?_⟩
  · exact h.nodup.sublist ((List.sublist_cons_self _ _).filterMap _)
  · intro r hr
    obtain ⟨hmade, hnot⟩ := h.fresh r (hsub r hr)
    refine ⟨hsame.made ▸ hmade, fun hmem => ?_⟩
    rcases (mem_adopt_runs d s change r).mp hmem with hold | hnew
    · split at hold
      · exact hnot (List.mem_of_mem_erase hold)
      · exact hnot hold
    · exact hapart r hr hnew
  · simp only [hsame.key]
    exact h.keys.sublist (((List.sublist_cons_self _ _).filterMap _).filterMap _)
  · intro r hr key hk
    rw [hsame.key] at hk
    have hfree := h.free r (hsub r hr) key hk
    rcases adopt_keys d s change key with ⟨r', hnew, hk'⟩ | hkeys | hkeys
    · -- two new runs have one key
      have hkeysNodup := h.keys
      rw [List.filterMap_cons_some hnew,
        List.filterMap_cons_some (f := fun x => (s.run x).key) hk'] at hkeysNodup
      exact absurd (List.mem_filterMap.mpr ⟨r, hr, hk⟩) (List.nodup_cons.mp hkeysNodup).1
    · rwa [hkeys]
    · exact .inl hkeys
  · exact h.once.sublist ((List.sublist_cons_self _ _).filterMap _)
  · intro r phase hmem
    obtain ⟨hr, hblocked, hphase⟩ := h.blocked r phase (List.mem_cons_of_mem _ hmem)
    -- then the first change unblocks another run
    have hunblock := h.alone ⟨r, phase, List.mem_cons_of_mem _ hmem⟩ change List.mem_cons_self
    cases change with
    | unblock r' phase' =>
      have hne : r ≠ r' := by
        rintro rfl
        have honce := h.once
        have hhead : (Adopted.unblock r phase' : Adopted J).unblocked = some r := rfl
        rw [List.filterMap_cons_some hhead] at honce
        exact (List.nodup_cons.mp honce).1 (List.mem_filterMap.mpr ⟨_, hmem, rfl⟩)
      refine ⟨(mem_adopt_runs d s _ r).mpr (.inl hr), ?_, hphase⟩
      show ((s.edit d r' _ 1 1).1.run r).phase = .blocked
      rw [edit, replaceEntry_phase, show _ = ((s.setRun r' _).run r).phase from rfl, setRun_run,
        if_neg hne]
      exact hblocked
    | _ => cases hunblock
  · rintro ⟨r, phase, hmem⟩ change' hchange'
    exact h.alone ⟨r, phase, List.mem_cons_of_mem _ hmem⟩ change' (List.mem_cons_of_mem _ hchange')

/-- **A commit whose changes all fit keeps the accounting.** -/
theorem Kept.adoptAll {changes : List (Adopted J)} (h : s.Kept leaving)
    (hstaged : Staged s leaving changes) (hfits : Fitting d s changes) :
    (s.adoptAll d changes).2 = true ∧ (s.adoptAll d changes).1.Kept leaving := by
  induction changes generalizing s with
  | nil => exact ⟨rfl, h⟩
  | cons change rest ih =>
    obtain ⟨hok, hkept⟩ := h.adopt (d := d) hstaged hfits.1
    rw [Records.adoptAll]
    cases hadopt : s.adopt d change with
    | mk next ok =>
      have htail := staged_tail (d := d) hstaged
      have hrest := hfits.2
      rw [hadopt] at hok hkept htail hrest
      cases hok
      exact ih hkept htail hrest

end Records

end ThreeXhaust.Chord.Jobs
