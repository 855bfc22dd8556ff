import ThreeXhaust.Chord.Jobs.Accounting

/-!
# What a commit does to the runs and the counts

The facts about `adoptAll` that hold of any commit that did not throw: which runs there are after it, how
far the object's count lags behind `#active` until the committed actions run, and how far the starts of
a transaction raise `#active`. Then the settling of waiters, after a commit, a discard and the end.
-/

namespace ThreeXhaust.Chord.Jobs

variable {J : Type} {d : JobDefinition J} {s : Records J} {changes : List (Adopted J)} {r : Nat}

namespace Adopted

def created : Adopted J → Option Nat
  | .create r => some r
  | _ => none

theorem new_of_created {change : Adopted J} (h : change.created = some r) : change.new = some r := by
  cases change <;> cases h
  rfl

end Adopted

def createds (changes : List (Adopted J)) : List Nat :=
  changes.filterMap Adopted.created

theorem mem_new_of_mem_createds (h : r ∈ createds changes) : r ∈ changes.filterMap Adopted.new := by
  obtain ⟨change, hmem, hcreated⟩ := List.mem_filterMap.mp h
  exact List.mem_filterMap.mpr ⟨change, hmem, Adopted.new_of_created hcreated⟩

@[simp] theorem new_creates (started : List Nat) :
    (started.map (Adopted.create (J := J))).filterMap Adopted.new = started := by
  induction started with
  | nil => rfl
  | cons r rest ih => exact congrArg (r :: ·) ih

namespace Records

/-! ## A commit in its changes -/

theorem adoptAll_cons (changes : List (Adopted J)) {change : Adopted J}
    (hok : (s.adoptAll d (change :: changes)).2 = true) :
    (s.adopt d change).2 = true ∧
      s.adoptAll d (change :: changes) = (s.adopt d change).1.adoptAll d changes := by
  rw [Records.adoptAll] at hok ⊢
  cases hadopt : s.adopt d change with
  | mk next ok =>
    rw [hadopt] at hok
    cases ok with
    | true => exact ⟨rfl, rfl⟩
    | false => cases hok

theorem adoptAll_append {more : List (Adopted J)} (hok : (s.adoptAll d (changes ++ more)).2 = true) :
    s.adoptAll d (changes ++ more) = (s.adoptAll d changes).1.adoptAll d more := by
  induction changes generalizing s with
  | nil => rfl
  | cons change rest ih =>
    obtain ⟨hfirst, hrest⟩ := adoptAll_cons (rest ++ more) hok
    rw [List.cons_append] at hok ⊢
    rw [hrest] at hok ⊢
    rw [ih hok]
    congr 2
    rw [Records.adoptAll]
    cases hadopt : s.adopt d change with
    | mk next ok =>
      rw [hadopt] at hfirst
      cases hfirst
      rfl

theorem adoptAll_same (d : JobDefinition J) (s : Records J) (changes : List (Adopted J)) :
    SameRuns s (s.adoptAll d changes).1 := by
  induction changes generalizing s with
  | nil => exact .refl
  | cons change rest ih =>
    have hfirst : SameRuns s (s.adopt d change).1 := .adopt d change
    rw [Records.adoptAll]
    cases hadopt : s.adopt d change with
    | mk next ok =>
      rw [hadopt] at hfirst
      cases ok with
      | true => exact hfirst.trans (ih next)
      | false => exact hfirst

theorem of_mem_adoptAll (hok : (s.adoptAll d changes).2 = true)
    (h : r ∈ (s.adoptAll d changes).1.runs) : r ∈ s.runs ∨ r ∈ changes.filterMap Adopted.new := by
  induction changes generalizing s with
  | nil => exact .inl h
  | cons change rest ih =>
    obtain ⟨-, hrest⟩ := adoptAll_cons rest hok
    rw [hrest] at hok h
    rw [List.filterMap_cons]
    rcases ih hok h with hmem | hnew
    · rcases (mem_adopt_runs d s change r).mp hmem with hold | hfirst
      · refine .inl ?_
        split at hold
        · exact List.mem_of_mem_erase hold
        · exact hold
      · rw [hfirst]
        exact .inr List.mem_cons_self
    · split
      · exact .inr hnew
      · exact .inr (List.mem_cons_of_mem _ hnew)

theorem mem_adoptAll (hok : (s.adoptAll d changes).2 = true)
    (h : r ∈ s.runs ∨ r ∈ changes.filterMap Adopted.new)
    (hgone : r ∉ changes.filterMap Adopted.gone) : r ∈ (s.adoptAll d changes).1.runs := by
  induction changes generalizing s with
  | nil => exact h.resolve_right nofun
  | cons change rest ih =>
    obtain ⟨-, hrest⟩ := adoptAll_cons rest hok
    rw [hrest] at hok ⊢
    have hgone' : r ∉ rest.filterMap Adopted.gone ∧ change.gone ≠ some r := by
      rw [List.filterMap_cons] at hgone
      split at hgone
      · next hnone => exact ⟨hgone, by rw [hnone]; nofun⟩
      · next x hx =>
        rw [hx]
        exact ⟨fun hmem => hgone (List.mem_cons_of_mem _ hmem),
          fun heq => hgone (Option.some_inj.mp heq ▸ List.mem_cons_self)⟩
    refine ih hok ?_ hgone'.1
    rcases h with hmem | hnew
    · refine .inl ((mem_adopt_runs d s change r).mpr (.inl ?_))
      split
      · next x hx => exact (List.mem_erase_of_ne fun heq => hgone'.2 (hx.trans (congrArg some heq.symm))).mpr hmem
      · exact hmem
    · rw [List.filterMap_cons] at hnew
      split at hnew
      · exact .inr hnew
      · next x hx =>
        rcases List.mem_cons.mp hnew with rfl | hnew
        · exact .inl ((mem_adopt_runs d s change r).mpr (.inr hx))
        · exact .inr hnew

/-- **A run that a commit takes away is gone after it.** -/
theorem gone_not_mem {leaving : Option Nat} (h : s.Kept leaving) (hstaged : Staged s leaving changes)
    (hfits : Fitting d s changes) (hr : r ∈ changes.filterMap Adopted.gone) :
    r ∉ (s.adoptAll d changes).1.runs := by
  induction changes generalizing s with
  | nil => cases hr
  | cons change rest ih =>
    have hok := (h.adoptAll hstaged hfits).1
    obtain ⟨hfirst, hrest⟩ := adoptAll_cons rest hok
    rw [hrest] at hok ⊢
    by_cases hgone : change.gone = some r
    · -- it was one of the runs, which the rest of the commit adds none of
      have hmem : r ∈ s.runs := by
        cases change with
        | delete x => cases hgone; exact hfits.1.1
        | drop x => cases hgone; exact hfits.1.1
        | _ => cases hgone
      have hnotNew : r ∉ (change :: rest).filterMap Adopted.new := fun hnew =>
        (hstaged.fresh r hnew).2 hmem
      intro hin
      rcases of_mem_adoptAll hok hin with hin | hnew
      · rcases (mem_adopt_runs d s change r).mp hin with herase | hself
        · rw [hgone] at herase
          exact h.nodup.not_mem_erase herase
        · exact hnotNew (List.mem_filterMap.mpr ⟨change, List.mem_cons_self, hself⟩)
      · refine hnotNew ?_
        rw [List.filterMap_cons]
        split
        · exact hnew
        · exact List.mem_cons_of_mem _ hnew
    · refine ih (h.adopt hstaged hfits.1).2 (staged_tail hstaged) hfits.2 ?_
      rw [List.filterMap_cons] at hr
      split at hr
      · exact hr
      · next x hx =>
        exact (List.mem_cons.mp hr).resolve_left fun heq => hgone (heq ▸ hx)

/-! ## The counts -/

theorem edit_counts (r : Nat) (f : JobRun J → JobRun J) (active counted : Int) :
    (s.edit d r f active counted).1.active = s.active + active ∧
      (s.edit d r f active counted).1.counted = s.counted + counted :=
  ⟨replaceEntry_active d _ r, replaceEntry_counted d _ r⟩

theorem insert_counts (r : Nat) :
    (s.insert d r).active = s.active + (s.counts r).toNat ∧
      (s.insert d r).counted = s.counted + (s.counts r).toNat := by
  show ((s.join r).count r).active = _ ∧ ((s.join r).count r).counted = _
  rw [count_eq]
  exact ⟨rfl, rfl⟩

theorem changeState_counts (r : Nat) (value : J) :
    (s.changeState d r value).1.active = s.active ∧ (s.changeState d r value).1.counted = s.counted := by
  unfold changeState
  split
  · have h := edit_counts (s := s) (d := d) r (fun run => { run with state := some value }) 0 0
    exact ⟨h.1.trans (Int.add_zero _), h.2.trans (Int.add_zero _)⟩
  · exact ⟨rfl, rfl⟩

/-- **The object's count lags behind `#active`** by the runs a change stops counting. -/
theorem adopt_counted (d : JobDefinition J) (s : Records J) (change : Adopted J) :
    (s.adopt d change).1.counted - (s.adopt d change).1.active =
      s.counted - s.active + (change.uncounts).toNat := by
  have hedit (r : Nat) (f : JobRun J → JobRun J) (active counted : Int) :=
    edit_counts (s := s) (d := d) r f active counted
  have hinsert (r : Nat) := insert_counts (s := s) (d := d) r
  cases change with
  | create r => simp only [Records.adopt, hinsert, Adopted.uncounts, Bool.toNat_false]; omega
  | restore r => simp only [Records.adopt, hinsert, Adopted.uncounts, Bool.toNat_false]; omega
  | update r fields => simp only [Records.adopt, hedit, Adopted.uncounts, Bool.toNat_false]; omega
  | outcome r outcome => simp only [Records.adopt, hedit, Adopted.uncounts, Bool.toNat_false]; omega
  | block r reason => simp only [Records.adopt, hedit, Adopted.uncounts, Bool.toNat_true]; omega
  | unblock r phase => simp only [Records.adopt, hedit, Adopted.uncounts, Bool.toNat_false]; omega
  | delete r =>
    show s.counted - (s.active - 1) = s.counted - s.active + 1
    omega
  | drop r =>
    show s.counted - s.active = s.counted - s.active + 0
    omega
  | state r value =>
    simp only [Records.adopt, changeState_counts, Adopted.uncounts, Bool.toNat_false]
    omega

theorem adoptAll_counted (hok : (s.adoptAll d changes).2 = true) :
    (s.adoptAll d changes).1.counted - (s.adoptAll d changes).1.active =
      s.counted - s.active + (changes.countP Adopted.uncounts : Nat) := by
  induction changes generalizing s with
  | nil => simp [Records.adoptAll]
  | cons change rest ih =>
    obtain ⟨-, hrest⟩ := adoptAll_cons rest hok
    rw [hrest] at hok ⊢
    rw [ih hok, adopt_counted, List.countP_cons]
    cases change.uncounts with
    | false => simp
    | true => simp; omega

/-- **Starts raise `#active` by one each at most**, and a finish lowers it. -/
theorem adoptAll_active_le {started : List Nat} (hok : (s.adoptAll d (started.map .create)).2 = true) :
    (s.adoptAll d (started.map .create)).1.active ≤ s.active + started.length := by
  induction started generalizing s with
  | nil => simp [Records.adoptAll]
  | cons r rest ih =>
    obtain ⟨-, hrest⟩ := adoptAll_cons (rest.map .create) hok
    rw [List.map_cons] at hok ⊢
    rw [hrest] at hok ⊢
    have hle := ih hok
    have hinsert : (s.adopt d (.create r)).1.active = s.active + (s.counts r).toNat :=
      (insert_counts r).1
    have := Bool.toNat_le (s.counts r)
    rw [List.length_cons]
    omega

theorem adoptAll_creates_runs (d : JobDefinition J) (s : Records J) (started : List Nat) :
    (s.adoptAll d (started.map .create)).1.runs = s.runs ++ started := by
  induction started generalizing s with
  | nil => exact (List.append_nil _).symm
  | cons r rest ih =>
    show ((s.insert d r).adoptAll d (rest.map .create)).1.runs = _
    rw [ih, insert_runs, List.append_assoc]
    rfl

/-! ## Waiters -/

structure SameRecords (s t : Records J) : Prop where
  made : t.made = s.made
  runs : t.runs = s.runs
  keys : t.keys = s.keys
  active : t.active = s.active
  running : t.running = s.running
  tags : t.tags = s.tags
  run : ∀ r, { t.run r with waiters := (s.run r).waiters } = s.run r

theorem SameRecords.refl : SameRecords s s :=
  ⟨rfl, rfl, rfl, rfl, rfl, rfl, fun _ => rfl⟩

variable {t : Records J}

theorem SameRecords.trans {u : Records J} (h : SameRecords s t) (h' : SameRecords t u) :
    SameRecords s u := by
  refine ⟨h'.made.trans h.made, h'.runs.trans h.runs, h'.keys.trans h.keys, h'.active.trans h.active,
    h'.running.trans h.running, h'.tags.trans h.tags, fun r => ?_⟩
  rw [← h.run r, ← h'.run r]

theorem SameRecords.settle (r : Nat) (answer : Answer J) : SameRecords s (s.settle r answer) := by
  refine ⟨rfl, rfl, rfl, rfl, rfl, rfl, fun x => ?_⟩
  unfold Records.settle
  rw [setRun_run]
  split
  · next heq => subst heq; rfl
  · rfl

theorem SameRecords.key (h : SameRecords s t) (r : Nat) : (t.run r).key = (s.run r).key := by
  rw [← h.run r]

theorem SameRecords.phase (h : SameRecords s t) (r : Nat) : (t.run r).phase = (s.run r).phase := by
  rw [← h.run r]

theorem SameRecords.entry (h : SameRecords s t) (r : Nat) : (t.run r).entry = (s.run r).entry := by
  rw [← h.run r]

theorem SameRecords.started (h : SameRecords s t) (r : Nat) :
    (t.run r).started = (s.run r).started := by
  rw [← h.run r]

/-- **The accounting is no matter of the waiters.** -/
theorem SameRecords.kept (h : SameRecords s t) {leaving : Option Nat} (hkept : s.Kept leaving)
    : t.Kept leaving := by
  refine ⟨h.runs ▸ hkept.nodup, ?_, ?_, ?_, ?_, ?_, ?_, h.running ▸ hkept.tags, ?_⟩
  · rw [h.runs, h.made]
    exact hkept.made
  · intro key r hr
    rw [h.keys] at hr
    rw [h.runs, h.key]
    exact hkept.keysRun key r hr
  · intro r hr hne key hk
    rw [h.runs] at hr
    rw [h.key] at hk
    rw [h.keys]
    exact hkept.runKeys r hr hne key hk
  · rw [h.active, hkept.active, h.runs]
    congr 1
    refine List.countP_congr fun x _ => ?_
    unfold counts
    rw [h.phase]
  · rw [h.running, h.runs, hkept.entries]
    exact List.map_congr_left fun x _ => (h.entry x).symm
  · intro r hr e he
    rw [h.runs] at hr
    rw [h.entry] at he
    exact hkept.owner r hr e he
  · rw [h.running, h.tags]
    exact hkept.tagged

/-- The waits of the runs `rs` are answered, and nothing else of the runs changes. -/
structure Answers (s t : Records J) (rs : List Nat) : Prop where
  same : SameRecords s t
  other : ∀ r, r ∉ rs → (t.run r).waiters = (s.run r).waiters
  done : ∀ r ∈ rs, ∃ answer, (t.run r).waiters = (s.run r).waiters.settle answer

theorem Answers.refl : Answers s s [] :=
  ⟨.refl, fun _ _ => rfl, nofun⟩

theorem Answers.settle (s : Records J) (r : Nat) (answer : Answer J) :
    Answers s (s.settle r answer) [r] := by
  have hwaiters (x : Nat) : ((s.settle r answer).run x).waiters =
      if x = r then (s.run r).waiters.settle answer else (s.run x).waiters := by
    unfold Records.settle
    rw [setRun_run]
    split <;> rfl
  refine ⟨.settle r answer, fun x hx => ?_, fun x hx => ⟨answer, ?_⟩⟩
  · rw [hwaiters, if_neg fun heq => hx (List.mem_singleton.mpr heq)]
  · cases List.mem_singleton.mp hx
    rw [hwaiters, if_pos rfl]

theorem Answers.trans {u : Records J} {rs rs' : List Nat} (h : Answers s t rs)
    (h' : Answers t u rs') : Answers s u (rs ++ rs') := by
  refine ⟨h.same.trans h'.same, fun r hr => ?_, fun r hr => ?_⟩
  · rw [List.mem_append, not_or] at hr
    exact (h'.other r hr.2).trans (h.other r hr.1)
  · by_cases hfirst : r ∈ rs
    · obtain ⟨answer, hanswer⟩ := h.done r hfirst
      refine ⟨answer, ?_⟩
      by_cases hsecond : r ∈ rs'
      · obtain ⟨again, hagain⟩ := h'.done r hsecond
        rw [hagain, hanswer, Oneshot.settle_settle]
      · rw [h'.other r hsecond, hanswer]
    · obtain ⟨answer, hanswer⟩ := h'.done r ((List.mem_append.mp hr).resolve_left hfirst)
      exact ⟨answer, hanswer.trans (by rw [h.other r hfirst])⟩

/-! What that means for the wait of one run. -/

theorem Answers.once (h : Answers s t rs) {r : Nat} (honce : (s.run r).waiters.Once) :
    (t.run r).waiters.Once := by
  by_cases hr : r ∈ rs
  · obtain ⟨answer, heq⟩ := h.done r hr
    rw [heq]
    exact honce.settle answer
  · rw [h.other r hr]
    exact honce

theorem Answers.answered (h : Answers s t rs) {r : Nat} (hr : r ∈ rs) :
    (t.run r).waiters.settled.isSome := by
  obtain ⟨answer, heq⟩ := h.done r hr
  rw [heq]
  exact Oneshot.settle_isSome _ _

theorem Answers.settled (h : Answers s t rs) {r : Nat} (hsettled : (s.run r).waiters.settled.isSome) :
    (t.run r).waiters.settled.isSome := by
  by_cases hr : r ∈ rs
  · exact h.answered hr
  · rw [h.other r hr]
    exact hsettled

theorem Answers.not_mem (h : Answers s t rs) {r : Nat} (hr : (t.run r).waiters.settled = none) :
    r ∉ rs := fun hin => by
  have := h.answered hin
  rw [hr] at this
  cases this

theorem Answers.rejectCreated (error : Rejection) (s : Records J) (changes : List (Adopted J)) :
    Answers s (.rejectCreated error s changes) (createds changes) := by
  induction changes generalizing s with
  | nil => exact .refl
  | cons change rest ih =>
    cases change with
    | create r => exact (Answers.settle s r (.failed error)).trans (ih _)
    | _ => exact ih s

@[simp] theorem rejectCreated_counted (error : Rejection) (s : Records J) (changes : List (Adopted J)) :
    (Records.rejectCreated error s changes).counted = s.counted := by
  induction changes generalizing s with
  | nil => rfl
  | cons change rest ih =>
    cases change with
    | create r => exact ih _
    | _ => exact ih s

theorem Answers.ended (s : Records J) : Answers s s.ended s.runs := by
  have hfold (rs : List Nat) (t : Records J) :
      Answers t (rs.foldl (fun s r => s.settle r (.failed .ended)) t) rs := by
    induction rs generalizing t with
    | nil => exact .refl
    | cons r rest ih => exact (Answers.settle t r (.failed .ended)).trans (ih _)
  have h := hfold s.runs s
  unfold Records.ended
  split
  · exact ⟨⟨h.same.made, h.same.runs, h.same.keys, h.same.active, h.same.running, h.same.tags, h.same.run⟩,
      h.other, h.done⟩
  · exact h

/-- **No run counts any more after the end.** -/
theorem ended_counted (s : Records J) (hactive : 0 ≤ s.active) :
    s.ended.counted = s.counted - s.active := by
  have hfold (rs : List Nat) (t : Records J) :
      (rs.foldl (fun s r => s.settle r (.failed .ended)) t).counted = t.counted := by
    induction rs generalizing t with
    | nil => rfl
    | cons r rest ih => exact ih _
  unfold Records.ended
  split
  · show (s.runs.foldl _ s).counted - s.active = _
    rw [hfold]
  · rw [hfold]
    omega

theorem Answers.committed (s : Records J) (change : Adopted J) :
    Answers s (s.committed change) change.gone.toList := by
  have hcounted {t : Records J} {rs : List Nat} (h : Answers t s rs) (counted : Int) :
      Answers t { s with counted } rs :=
    ⟨⟨h.same.made, h.same.runs, h.same.keys, h.same.active, h.same.running, h.same.tags, h.same.run⟩,
      h.other, h.done⟩
  cases change with
  | delete r => exact (hcounted .refl _).trans (Answers.settle _ r _)
  | drop r => exact Answers.settle s r _
  | block r reason => exact hcounted .refl _
  | _ => exact .refl

theorem committed_counted (s : Records J) (change : Adopted J) :
    (s.committed change).counted = s.counted - (change.uncounts).toNat := by
  cases change <;> simp [Records.committed, Adopted.uncounts, Records.settle, Records.setRun]

end Records

end ThreeXhaust.Chord.Jobs
