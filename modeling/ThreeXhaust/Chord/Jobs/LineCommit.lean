import ThreeXhaust.Chord.Jobs.LineSteps

/-!
# The commit, and the end

What the end of a transaction does to the invariant: it is adopted and its actions run, or it is discarded
or cut; and what the end of the object does. Two of these steps keep it only on a condition (`Timely`): the
changes a commit adopts fit, and the object does not end between the adoption of a change that ends or
blocks a run and the actions after it.

* **`Inv.adopt`**, **`Inv.settle`**, **`Inv.endObject`** — the three steps.
-/

namespace ThreeXhaust.Chord.Jobs.State

variable {J : Type} {s t : State J} {due : List (Adopted J)} {r : Nat} {tx : Transaction J}

/-- **The step finds the runs as they were decided for**: every change a commit adopts fits, the object
does not end before the actions of a change that ended or blocked a run, no blocked run is cut, and no
other definition lowers the concurrency below what was started and is not yet adopted. -/
def Timely (s : State J) : Input J → Prop
  | .redefine definition => ∀ d ∈ definition, ∀ tx ∈ s.holder, tx.stage ≠ .adopted →
    tx.staging.started ≠ [] → ∀ c ∈ d.concurrency, s.activeIn tx.staging ≤ (c : Nat)
  | .commit => s.isEnded = false → ∀ tx ∈ s.holder, tx.stage = .open →
    Fitting s.definition s.toRecords tx.closed.staging.changes
  | .adopt => s.isEnded = false → ∀ tx ∈ s.holder, tx.stage = .stepping →
    Fitting s.definition s.toRecords tx.staging.changes
  | .endObject => s.isEnded = false → ∀ tx ∈ s.holder, tx.stage = .adopted →
    ∀ change ∈ tx.staging.changes, change.gone = none ∧ change.uncounts = false
  | .cut r _ => s.persisted = true → (s.run r).phase ≠ .blocked
  | _ => True

instance (s : State J) (input : Input J) : Decidable (s.Timely input) := by
  unfold Timely
  split <;> infer_instance

/-! ## The commit -/

theorem commit_eq (hholder : s.holder = some tx) (hstage : tx.stage = .open) :
    s.commit = s.enterStep.adopt := by
  unfold State.commit State.enterStep
  rw [hholder]
  dsimp only
  rw [if_pos hstage, if_pos hstage]
  rfl

/-- Closing a transaction adds the deletion of the run that finishes, and nothing else. -/
theorem closed_eq (tx : Transaction J) :
    tx.closed.staging.changes =
        tx.staging.changes ++ (tx.staging.finishing.map .delete).toList ∧
      tx.closed.staging.started = tx.staging.started ∧
      tx.closed.staging.finishing = tx.staging.finishing ∧ tx.closed.starts = tx.starts ∧
      tx.closed.loads = tx.loads := by
  unfold Transaction.closed
  cases hfinishing : tx.staging.finishing with
  | none => simp [hfinishing]
  | some r => simp [hfinishing]

theorem closed_new (tx : Transaction J) :
    tx.closed.staging.changes.filterMap Adopted.new = tx.staging.changes.filterMap Adopted.new ∧
      tx.closed.staging.changes.filterMap Adopted.unblocked =
        tx.staging.changes.filterMap Adopted.unblocked ∧
      createds tx.closed.staging.changes = createds tx.staging.changes := by
  unfold createds
  rw [(closed_eq tx).1]
  simp only [List.filterMap_append]
  cases tx.staging.finishing <;> simp [Adopted.new, Adopted.unblocked, Adopted.created]

/-- A closed transaction is as sound as an open one. -/
theorem TxSound.enterStep (h : s.TxSound tx) (hstage : tx.stage = .open) :
    s.TxSound { tx.closed with stage := .stepping } := by
  obtain ⟨hchanges, hstarted, hfinishing, hstarts, hloads⟩ := closed_eq tx
  obtain ⟨hnew, hunblocked, -⟩ := closed_new tx
  have hstaged : Staged s.toRecords tx.closed.staging.finishing tx.closed.staging.changes := by
    have hmem (r : Nat) (phase : Phase) (hunblock : .unblock r phase ∈ tx.closed.staging.changes) :
        .unblock r phase ∈ tx.staging.changes := by
      rw [hchanges] at hunblock
      refine (List.mem_append.mp hunblock).resolve_right fun hdelete => ?_
      cases hf : tx.staging.finishing with
      | none => rw [hf] at hdelete; cases hdelete
      | some f => rw [hf] at hdelete; cases List.mem_singleton.mp hdelete
    refine ⟨?_, ?_, ?_, ?_, ?_, ?_, ?_⟩
    · rw [hnew]
      exact h.staged.nodup
    · rw [hnew]
      exact h.staged.fresh
    · rw [hnew]
      exact h.staged.keys
    · rw [hnew, hfinishing]
      exact h.staged.free
    · rw [hunblocked]
      exact h.staged.once
    · exact fun r phase hunblock => h.staged.blocked r phase (hmem r phase hunblock)
    · rintro ⟨r, phase, hunblock⟩ change hchange
      have halone := h.staged.alone ⟨r, phase, hmem r phase hunblock⟩
      rw [hchanges] at hchange
      refine (List.mem_append.mp hchange).elim (halone change) fun hdelete => ?_
      -- a finish unblocks nothing
      cases hf : tx.staging.finishing with
      | none => rw [hf] at hdelete; cases hdelete
      | some f =>
        cases hs : tx.starts with
        | false => rw [(h.plain hs).2.1] at hf; cases hf
        | true =>
          have hin := hmem r phase hunblock
          rw [h.starts hs, hstage, if_neg (by decide), List.append_nil] at hin
          obtain ⟨x, -, hx⟩ := List.mem_map.mp hin
          cases hx
  refine ⟨hstaged, ?_, ?_, ?_, ?_, ?_, ?_⟩
  · intro hs
    show tx.closed.staging.changes = tx.closed.staging.started.map .create ++ _
    rw [hchanges, hstarted, if_pos rfl, h.starts (hstarts ▸ hs), hstage, if_neg (by decide),
      List.append_nil]
    show _ = _ ++ (tx.closed.staging.finishing.map Adopted.delete).toList
    rw [hfinishing]
  · intro hs
    obtain ⟨hnone, hf, hplain⟩ := h.plain (hstarts ▸ hs)
    refine ⟨hstarted.trans hnone, hfinishing.trans hf, fun hnot => ?_⟩
    exact hnew.trans (hplain (hloads ▸ hnot))
  · intro hl
    exact hstarts.trans (h.loads (hloads ▸ hl))
  · show ∀ r ∈ tx.closed.staging.changes.filterMap Adopted.new, _
    rw [hnew]
    exact h.unsettled
  · show tx.closed.staging.started ≠ [] → _
    rw [hstarted]
    exact h.live
  · show ∀ f, tx.closed.staging.finishing = some f → _ ∧ f ∉ tx.closed.staging.started
    rw [hfinishing, hstarted]
    exact h.finishing

/-- The line enters its commit. -/
theorem Inv.enterStep (h : s.Inv s.owed) : s.enterStep.Inv s.enterStep.owed := by
  unfold State.enterStep
  cases hholder : s.holder with
  | none => exact h
  | some tx =>
    dsimp only
    split
    swap
    · exact h
    next hstage =>
    obtain ⟨hchanges, hstarted, hfinishing, hstarts, hloads⟩ := closed_eq tx
    obtain ⟨hnew, hunblocked, hcreated⟩ := closed_new tx
    have hnotAdopted : tx.stage ≠ .adopted := by rw [hstage]; decide
    set t : State J := { s with holder := some { tx.closed with stage := .stepping } } with ht
    have hholder' : t.holder = some { tx.closed with stage := .stepping } := rfl
    rw [owed_of_stage hholder hnotAdopted] at h
    rw [owed_of_stage hholder' (by decide : Stage.stepping ≠ .adopted)]
    have hcreated' : t.created = s.created := by
      rw [created_of_some hholder', created_of_some hholder, createdIn_of_stage hnotAdopted, createdIn,
        if_neg fun hadopted => absurd hadopted.1 (by decide : Stage.stepping ≠ .adopted), ← hcreated]
    refine
      { h with
        fate := ?_
        holder := ?_
        within := ?_
        shut := ?_
        cuts := ?_
        staged := ?_
        unloaded := ?_ }
    · rw [hcreated']
      exact h.fate
    · rintro hended tx' htx' -
      cases htx'
      exact { (h.holder hended tx hholder hnotAdopted).enterStep hstage with }
    · rintro tx' htx' -
      cases htx'
      have hwithin := h.within tx hholder hnotAdopted
      show tx.closed.staging.started ≠ [] → ∀ c ∈ s.definition.concurrency,
        s.active + (tx.closed.staging.started.length : Nat) -
          (if tx.closed.staging.finishing.isNone then 0 else 1) ≤ (c : Int)
      rw [hstarted, hfinishing]
      exact hwithin
    · rintro - tx' htx'
      cases htx'
      show Stage.stepping ≠ .open
      decide
    · intro r hr
      obtain ⟨hlt, hnot, hapart⟩ := h.cuts r hr
      refine ⟨hlt, hnot, fun tx' htx' => ?_⟩
      cases htx'
      show r ∉ tx.closed.staging.changes.filterMap Adopted.new
      rw [hnew]
      exact hapart tx hholder
    · rintro tx' htx' hl
      cases htx'
      exact h.staged tx hholder (hloads.symm.trans hl)
    · intro hlive hload
      rcases h.unloaded hlive hload with ⟨tx', htx', -, hadopted⟩ | hempty
      · cases hholder.symm.trans htx'
        exact absurd hadopted hnotAdopted
      · exact .inr hempty

/-- What is adopted in front of more was adopted without them. -/
theorem adoptAll_ok_append {ρ : Records J} {d : JobDefinition J} {changes more : List (Adopted J)}
    (hok : (ρ.adoptAll d (changes ++ more)).2 = true) : (ρ.adoptAll d changes).2 = true := by
  induction changes generalizing ρ with
  | nil => rfl
  | cons change rest ih =>
    rw [List.cons_append, Records.adoptAll] at hok
    rw [Records.adoptAll]
    cases hadopt : ρ.adopt d change with
    | mk next ok =>
      rw [hadopt] at hok
      cases ok with
      | true => exact ih hok
      | false => cases hok

/-- **An adopted commit**: its changes' actions are due. -/
theorem Inv.adopted (h : s.Inv []) (hholder : s.holder = some tx) (hstage : tx.stage = .stepping)
    (hended : s.isEnded = false)
    (hfits : Fitting s.definition s.toRecords tx.staging.changes) :
    (s.toRecords.adoptAll s.definition tx.staging.changes).2 = true ∧
      ({ s with
          toRecords := (s.toRecords.adoptAll s.definition tx.staging.changes).1
          holder := some { tx with stage := .adopted } } : State J).Inv tx.staging.changes ∧
      (tx.staging.started ≠ [] →
        (s.toRecords.adoptAll s.definition tx.staging.changes).1.active ≤ s.activeIn tx.staging) := by
  have hnotAdopted : tx.stage ≠ .adopted := by rw [hstage]; decide
  have hbooks := h.books hended
  have htx := h.holder hended tx hholder hnotAdopted
  obtain ⟨hok, hkept⟩ := hbooks.leave.adoptAll htx.staged hfits
  have hsame := Records.adoptAll_same s.definition s.toRecords tx.staging.changes
  have hcounted := Records.adoptAll_counted hok
  have hofMem (r : Nat) := Records.of_mem_adoptAll (r := r) hok
  have hmem (r : Nat) := Records.mem_adoptAll (r := r) hok
  -- what the transaction is, when it starts runs or finishes one
  have hstartsOf : tx.staging.finishing ≠ none ∨ tx.staging.started ≠ [] → tx.starts = true := by
    intro hsome
    by_contra hno
    obtain ⟨hnone, hf, -⟩ := htx.plain (by simpa using hno)
    exact hsome.elim (fun hne => hne hf) fun hne => hne hnone
  have hshape (hs : tx.starts = true) : tx.staging.changes = tx.staging.started.map .create ++
      (tx.staging.finishing.map .delete).toList := by
    rw [htx.starts hs, if_pos hstage]
  have hnews (hs : tx.starts = true) : tx.staging.changes.filterMap Adopted.new = tx.staging.started := by
    rw [hshape hs, List.filterMap_append, new_creates]
    cases tx.staging.finishing <;> simp [Adopted.new]
  have hafter (hs : tx.starts = true) :
      (s.toRecords.adoptAll s.definition (tx.staging.started.map .create)).2 = true ∧
      s.toRecords.adoptAll s.definition tx.staging.changes =
        (s.toRecords.adoptAll s.definition (tx.staging.started.map .create)).1.adoptAll s.definition
          (tx.staging.finishing.map .delete).toList := by
    rw [hshape hs] at hok
    rw [hshape hs]
    exact ⟨adoptAll_ok_append hok, Records.adoptAll_append hok⟩
  have hleft (f : Nat) (hf : tx.staging.finishing = some f) :
      f ∉ (s.toRecords.adoptAll s.definition tx.staging.changes).1.runs := by
    have hs := hstartsOf (.inl (by simp [hf]))
    have hnodup : (s.runs ++ tx.staging.started).Nodup := by
      refine List.nodup_append.mpr ⟨hbooks.nodup, hnews hs ▸ htx.staged.nodup, ?_⟩
      rintro r hr r' hr' rfl
      exact (htx.staged.fresh r (by rwa [hnews hs])).2 hr
    rw [(hafter hs).2, hf]
    show f ∉ (Records.runs _).erase f
    rw [Records.adoptAll_creates_runs]
    exact hnodup.not_mem_erase
  have hactive (hs : tx.starts = true) :
      (s.toRecords.adoptAll s.definition tx.staging.changes).1.active ≤
        s.active + tx.staging.started.length - (if tx.staging.finishing.isNone then 0 else 1) := by
    have hle := Records.adoptAll_active_le (hafter hs).1
    rw [(hafter hs).2]
    cases hf : tx.staging.finishing with
    | none => simpa [Records.adoptAll] using hle
    | some f =>
      show Records.active _ - 1 ≤ _
      simpa using hle
  refine ⟨hok, ?_, fun hne => hactive (hstartsOf (.inr hne))⟩
  set after := (s.toRecords.adoptAll s.definition tx.staging.changes).1 with hdef
  set t : State J := { s with toRecords := after, holder := some { tx with stage := .adopted } } with ht
  have hholder' : t.holder = some { tx with stage := .adopted } := rfl
  have hcreated : t.created = s.cuts.flatMap fun staging => createds staging.changes := by
    rw [created_of_some hholder', createdIn, if_pos ⟨rfl, hended⟩]
    rfl
  have hwas (r : Nat) : r ∈ after.runs ∨ r ∈ tx.staging.changes.filterMap Adopted.gone ∨
      (r ∉ s.runs ∧ r ∉ tx.staging.changes.filterMap Adopted.new) := by
    by_cases hgone : r ∈ tx.staging.changes.filterMap Adopted.gone
    · exact .inr (.inl hgone)
    by_cases hin : r ∈ s.runs ∨ r ∈ tx.staging.changes.filterMap Adopted.new
    · exact .inl (hmem r hin hgone)
    · exact .inr (.inr (not_or.mp hin))
  refine ⟨?_, ?_, ?_, h.dropped, ?_, ?_, ?_, ?_, ?_, ?_, ?_, ?_, ?_, h.live, h.reading, ?_, ?_⟩
  · exact fun _ => hkept.left hleft
  · intro _
    have := h.counted hended
    show after.counted = after.active + (tx.staging.changes.countP Adopted.uncounts : Nat)
    rw [List.countP_nil] at this
    push_cast at this
    omega
  · exact fun hyes => absurd (hyes.symm.trans hended) (by decide)
  · intro r
    show (after.run r).waiters.Once
    rw [hsame.waiters]
    exact h.once r
  · intro _ r hr
    show (after.run r).waiters.settled = none
    rw [hsame.waiters]
    exact (hofMem r hr).elim (h.unsettled hended r) (htx.unsettled r)
  · exact fun hyes => absurd (hyes.symm.trans hended) (by decide)
  · exact fun _ r hr => Records.gone_not_mem hbooks.leave htx.staged hfits hr
  · intro r hr
    show (s.isEnded = false ∧ (r ∈ after.runs ∨ r ∈ tx.staging.changes.filterMap Adopted.gone)) ∨
      r ∈ t.created ∨ ((after.run r).started = false ∧ (after.run r).waiters.waiting = [])
    have hr' : (after.run r).waiters.settled = none := hr
    rw [hsame.waiters] at hr'
    rw [hcreated, hsame.waiters, hsame.started]
    rcases hwas r with hnow | hgone | ⟨hnot, hnotNew⟩
    · exact .inl ⟨hended, .inl hnow⟩
    · exact .inl ⟨hended, .inr hgone⟩
    · rcases h.fate r hr' with ⟨-, hin | hnil⟩ | hcreated' | horphan
      · exact absurd hin hnot
      · cases hnil
      · rw [created_of_some hholder, createdIn_of_stage hnotAdopted] at hcreated'
        refine (List.mem_append.mp hcreated').elim (fun hin => ?_) fun hcut => .inr (.inl hcut)
        exact absurd (mem_new_of_mem_createds hin) hnotNew
      · exact .inr (.inr horphan)
  · rintro - tx' htx' hnot
    cases htx'
    exact absurd rfl hnot
  · rintro tx' htx' hnot
    cases htx'
    exact absurd rfl hnot
  · exact fun hyes => absurd (hyes.symm.trans hended) (by decide)
  · intro r hr
    obtain ⟨hlt, hnot, hapart⟩ := h.cuts r hr
    show r < after.made ∧ r ∉ after.runs ∧ _
    refine ⟨hsame.made ▸ hlt, fun hin => (hofMem r hin).elim hnot (hapart tx hholder), ?_⟩
    rintro tx' htx'
    cases htx'
    exact hapart tx hholder
  · rintro tx' htx' hl
    cases htx'
    exact h.staged tx hholder hl
  · intro hlive hload
    cases hl : tx.loads with
    | true => exact .inl ⟨_, rfl, hl, rfl⟩
    | false =>
      -- nothing is added before the job is live
      obtain ⟨hruns, -⟩ : s.runs = [] ∧ ∀ key, s.keys key = none := by
        refine (h.unloaded hlive hload).resolve_left ?_
        rintro ⟨tx', htx', hl', -⟩
        cases hholder.symm.trans htx'
        rw [hl] at hl'
        cases hl'
      have hnone : tx.staging.changes.filterMap Adopted.new = [] := by
        cases hs : tx.starts with
        | false => exact (htx.plain hs).2.2 hl
        | true =>
          rw [hnews hs]
          by_contra hne
          exact absurd (htx.live hne) (by rw [show s.live = false from hlive]; decide)
      have hempty : after.runs = [] := by
        refine List.eq_nil_iff_forall_not_mem.mpr fun r hr => ?_
        rcases hofMem r hr with hin | hin
        · rw [hruns] at hin; cases hin
        · rw [hnone] at hin; cases hin
      refine .inr ⟨hempty, fun key => ?_⟩
      cases hkey : after.keys key with
      | none => rfl
      | some r =>
        have hin := (hkept.keysRun key r hkey).1
        rw [hempty] at hin
        cases hin

/-- **A commit adopts its changes**, and owes the actions after them. -/
theorem Inv.adopt (h : s.Inv s.owed)
    (hfits : s.isEnded = false → ∀ tx ∈ s.holder, tx.stage = .stepping →
      Fitting s.definition s.toRecords tx.staging.changes) : s.adopt.Inv s.adopt.owed := by
  unfold State.adopt
  cases hholder : s.holder with
  | none => exact h
  | some tx =>
    dsimp only
    split
    swap
    · exact h
    next hstage =>
    have hnotAdopted : tx.stage ≠ .adopted := by rw [hstage]; decide
    rw [owed_of_stage hholder hnotAdopted] at h
    unfold adoptTx
    split
    · next hended =>
      -- a step admitted before the object ended adopts nothing after it
      set t : State J := { s with holder := some { tx with stage := .adopted } } with ht
      have hholder' : t.holder = some { tx with stage := .adopted } := rfl
      have hended' : t.isEnded = true := hended
      rw [owed_of_ended hended']
      have hcreated : t.created = s.created := by
        rw [created_of_some hholder', created_of_some hholder, createdIn_of_stage hnotAdopted, createdIn,
          if_neg fun hadopted => absurd (hadopted.2.symm.trans hended') (by decide)]
      refine
        { h with
          fate := ?_
          holder := ?_
          within := ?_
          shut := ?_
          cuts := ?_
          staged := ?_
          unloaded := ?_ }
      · rw [hcreated]
        exact h.fate
      · exact fun hno => absurd (hno.symm.trans hended') (by decide)
      · rintro tx' htx' hnot
        cases htx'
        exact absurd rfl hnot
      · rintro - tx' htx'
        cases htx'
        show Stage.adopted ≠ .open
        decide
      · intro r hr
        obtain ⟨hlt, hnot, hapart⟩ := h.cuts r hr
        refine ⟨hlt, hnot, fun tx' htx' => ?_⟩
        cases htx'
        exact hapart tx hholder
      · rintro tx' htx' hl
        cases htx'
        exact h.staged tx hholder hl
      · intro hlive hload
        rcases h.unloaded hlive hload with ⟨tx', htx', -, hadopted⟩ | hempty
        · cases hholder.symm.trans htx'
          exact absurd hadopted hnotAdopted
        · exact .inr hempty
    · next hended =>
      have hended' : s.isEnded = false := Bool.eq_false_iff.mpr hended
      obtain ⟨hok, hinv, -⟩ := h.adopted hholder hstage hended' (hfits hended' tx hholder hstage)
      cases hadopt : s.toRecords.adoptAll s.definition tx.staging.changes with
      | mk after ok =>
        rw [hadopt] at hok hinv
        cases hok
        set t : State J :=
          { s with toRecords := after, holder := some { tx with stage := .adopted } } with ht
        have howed : t.owed = tx.staging.changes := by
          show (if Stage.adopted = .adopted ∧ s.isEnded = false then tx.staging.changes else []) = _
          rw [if_pos ⟨rfl, hended'⟩]
        rw [howed]
        exact hinv

theorem adopt_definition (s : State J) : s.adopt.definition = s.definition := by
  unfold State.adopt adoptTx
  split
  · split
    · split
      · rfl
      · split <;> rfl
    · rfl
  · rfl

/-- **A start never raises `#active` above the job's concurrency.** -/
theorem Inv.adopt_active_le (h : s.Inv s.owed) (hholder : s.holder = some tx)
    (hstage : tx.stage = .stepping) (hne : tx.staging.started ≠ [])
    (hfits : s.isEnded = false → Fitting s.definition s.toRecords tx.staging.changes)
    {c : Nat} (hc : c ∈ s.definition.concurrency) : s.adopt.active ≤ c := by
  have hnotAdopted : tx.stage ≠ .adopted := by rw [hstage]; decide
  have hle := h.within tx hholder hnotAdopted hne c hc
  rw [owed_of_stage hholder hnotAdopted] at h
  unfold State.adopt adoptTx
  rw [hholder]
  dsimp only
  rw [if_pos hstage]
  split
  · -- the object ended and nothing is adopted
    show s.active ≤ c
    have := List.length_pos_iff.mpr hne
    unfold activeIn at hle
    split at hle <;> omega
  · next hended =>
    have hended' : s.isEnded = false := Bool.eq_false_iff.mpr hended
    obtain ⟨hok, -, hactive⟩ := h.adopted hholder hstage hended' (hfits hended')
    cases hadopt : s.toRecords.adoptAll s.definition tx.staging.changes with
    | mk after ok =>
      rw [hadopt] at hok hactive
      cases hok
      exact Int.le_trans (hactive hne) hle

/-! ## The end of a transaction -/

/-- **The line is free again**, and the waiters of the runs the transaction created are rejected: it was
discarded, or its object ended. -/
theorem Inv.release (h : s.Inv []) (hholder : s.holder = some tx)
    (hcreatedIn : s.createdIn tx = createds tx.staging.changes)
    (hfresh : s.isEnded = false → ∀ r ∈ createds tx.staging.changes, r ∉ s.runs)
    (error : Rejection) {load : Load J}
    (hlive : s.live = true → s.persisted = true → load = .done)
    (hreading : ∀ stored, load = .reading stored → s.persisted = true)
    (hunloaded : s.live = false → load ≠ .done → s.runs = [] ∧ ∀ key, s.keys key = none) :
    ({ s with
        holder := none
        load
        toRecords := .rejectCreated error s.toRecords tx.staging.changes } : State J).Inv [] := by
  have hanswers := Records.Answers.rejectCreated error s.toRecords tx.staging.changes
  set after := Records.rejectCreated error s.toRecords tx.staging.changes with hafter
  set t : State J := { s with holder := none, load, toRecords := after } with ht
  have hcreated : t.created = s.cuts.flatMap fun staging => createds staging.changes :=
    created_of_none rfl
  refine ⟨?_, ?_, ?_, h.dropped, ?_, ?_, ?_, fun _ r hr => absurd hr List.not_mem_nil, ?_, nofun, nofun, nofun, ?_, hlive, hreading,
    nofun, ?_⟩
  · exact fun hdropped => hanswers.same.kept (h.kept hdropped)
  · intro hended
    show after.counted = after.active + _
    rw [hafter, Records.rejectCreated_counted, hanswers.same.active]
    exact h.counted hended
  · intro hended
    show after.counted = 0
    rw [hafter, Records.rejectCreated_counted]
    exact h.ended hended
  · exact fun r => hanswers.once (h.once r)
  · intro hended r hr
    have hr' : r ∈ s.runs := hanswers.same.runs ▸ hr
    show (after.run r).waiters.settled = none
    rw [hanswers.other r fun hin => hfresh hended r hin hr']
    exact h.unsettled hended r hr'
  · exact fun hended r hr => hanswers.settled (h.settled hended r (hanswers.same.runs ▸ hr))
  · intro r hr
    have hr' : (after.run r).waiters.settled = none := hr
    have hnot : r ∉ createds tx.staging.changes := hanswers.not_mem hr'
    show (s.isEnded = false ∧ (r ∈ after.runs ∨ r ∈ [].filterMap Adopted.gone)) ∨ r ∈ t.created ∨
      ((after.run r).started = false ∧ (after.run r).waiters.waiting = [])
    rw [hanswers.other r hnot] at hr' ⊢
    rw [hcreated, hanswers.same.runs, hanswers.same.started]
    refine (h.fate r hr').imp id (.imp (fun hin => ?_) id)
    rw [created_of_some hholder, hcreatedIn] at hin
    exact (List.mem_append.mp hin).resolve_left hnot
  · intro r hr
    obtain ⟨hlt, hnot, -⟩ := h.cuts r hr
    show r < after.made ∧ r ∉ after.runs ∧ _
    rw [hanswers.same.made, hanswers.same.runs]
    exact ⟨hlt, hnot, nofun⟩
  · intro hlive' hload
    refine .inr ?_
    show after.runs = [] ∧ ∀ key, after.keys key = none
    rw [hanswers.same.runs, hanswers.same.keys]
    exact hunloaded hlive' hload

/-- Where the load stands once the transaction has left the line. -/
theorem Inv.loadAfter (h : s.Inv due) (hholder : s.holder = some tx) (committed : Bool)
    (hcommitted : committed = true ∨ tx.stage ≠ .adopted) :
    (s.live = true → s.persisted = true → s.loadAfter tx committed = .done) ∧
      (∀ stored, s.loadAfter tx committed = .reading stored → s.persisted = true) ∧
      (s.live = false → s.loadAfter tx committed ≠ .done → s.runs = [] ∧ ∀ key, s.keys key = none) := by
  unfold State.loadAfter
  cases hl : tx.loads with
  | false =>
    refine ⟨h.live, h.reading, fun hlive hload => (h.unloaded hlive hload).resolve_left ?_⟩
    rintro ⟨tx', htx', hl', -⟩
    cases hholder.symm.trans htx'
    rw [hl] at hl'
    cases hl'
  | true =>
    have hstaged := h.staged tx hholder hl
    have hnotLive (hlive : s.live = true) (hpersisted : s.persisted = true) : False := by
      have hdone := h.live hlive hpersisted
      rw [hstaged] at hdone
      cases hdone
    cases committed with
    | true => exact ⟨fun _ _ => rfl, nofun, fun _ hnot => absurd rfl hnot⟩
    | false =>
      refine ⟨fun hlive hpersisted => (hnotLive hlive hpersisted).elim, nofun, fun hlive _ => ?_⟩
      refine (h.unloaded hlive (by rw [hstaged]; nofun)).resolve_left ?_
      rintro ⟨tx', htx', -, hadopted⟩
      cases hholder.symm.trans htx'
      exact hcommitted.elim nofun fun hnot => hnot hadopted

/-- A transaction that is not adopted is discarded. -/
theorem Inv.discard (h : s.Inv s.owed) : s.discard.Inv s.discard.owed := by
  unfold State.discard
  cases hholder : s.holder with
  | none => exact h
  | some tx =>
    dsimp only
    split
    · exact h
    · next hstage =>
      rw [owed_of_stage hholder hstage] at h
      have hnone : (s.discarded tx).owed = [] := owed_of_none rfl
      rw [hnone]
      obtain ⟨hlive, hreading, hunloaded⟩ := h.loadAfter hholder false (.inr hstage)
      refine h.release hholder (createdIn_of_stage hstage) (fun hended r hr => ?_) .discarded hlive
        hreading hunloaded
      exact ((h.holder hended tx hholder hstage).staged.fresh r (mem_new_of_mem_createds hr)).2

/-- **One action after a commit.** -/
theorem Inv.committed (change : Adopted J) {rest : List (Adopted J)} (h : s.Inv (change :: rest))
    (hholder : s.holder = none) (hended : s.isEnded = false) : (s.committed change).Inv rest := by
  -- a change without an action owed
  have hquiet (hgone : change.gone = none) (huncounts : change.uncounts = false) : s.Inv rest := by
    have hgones : (change :: rest).filterMap Adopted.gone = rest.filterMap Adopted.gone :=
      List.filterMap_cons_none hgone
    refine { h with counted := fun he => ?_, gone := fun he => ?_, fate := fun r hr => ?_ }
    · have := h.counted he
      rwa [List.countP_cons_of_neg (by simp [huncounts])] at this
    · rw [← hgones]
      exact h.gone he
    · rw [← hgones]
      exact h.fate r hr
  have hrecords : ({ s with toRecords := s.toRecords.committed change } : State J).Inv rest := by
    have hanswers := Records.Answers.committed s.toRecords change
    have hcounted := Records.committed_counted s.toRecords change
    set after := s.toRecords.committed change with hafter
    set t : State J := { s with toRecords := after } with ht
    have hcreated : t.created = s.created := by
      rw [created_of_none (show t.holder = none from hholder), created_of_none hholder]
    have hgoneNot (r : Nat) (hr : r ∈ change.gone.toList) : r ∉ s.runs := by
      refine h.gone hended r ?_
      rw [List.filterMap_cons_some (Option.mem_toList.mp hr)]
      exact List.mem_cons_self
    refine ⟨?_, ?_, ?_, h.dropped, ?_, ?_, ?_, ?_, ?_, ?_, ?_, h.shut, ?_, h.live, h.reading, h.staged, ?_⟩
    · exact fun hdropped => hanswers.same.kept (h.kept hdropped)
    · intro he
      have := h.counted he
      rw [List.countP_cons] at this
      show after.counted = after.active + _
      rw [hcounted, hanswers.same.active]
      cases hu : change.uncounts with
      | false => rw [hu] at this; simpa using this
      | true =>
        rw [hu] at this
        simp only [Bool.toNat_true, if_true] at this ⊢
        push_cast at this ⊢
        omega
    · exact fun hyes => absurd (hyes.symm.trans hended) (by decide)
    · exact fun r => hanswers.once (h.once r)
    · intro he r hr
      have hr' : r ∈ s.runs := hanswers.same.runs ▸ hr
      show (after.run r).waiters.settled = none
      rw [hanswers.other r fun hin => hgoneNot r hin hr']
      exact h.unsettled he r hr'
    · exact fun hyes => absurd (hyes.symm.trans hended) (by decide)
    · intro he r hr
      show r ∉ after.runs
      rw [hanswers.same.runs]
      refine h.gone he r ?_
      rw [List.filterMap_cons]
      split
      · exact hr
      · exact List.mem_cons_of_mem _ hr
    · intro r hr
      have hr' : (after.run r).waiters.settled = none := hr
      have hnot : r ∉ change.gone.toList := hanswers.not_mem hr'
      show (s.isEnded = false ∧ (r ∈ after.runs ∨ r ∈ rest.filterMap Adopted.gone)) ∨ r ∈ t.created ∨
        ((after.run r).started = false ∧ (after.run r).waiters.waiting = [])
      rw [hanswers.other r hnot] at hr' ⊢
      rw [hcreated, hanswers.same.runs, hanswers.same.started]
      refine (h.fate r hr').imp (fun hin => ⟨hin.1, hin.2.imp id fun hgone => ?_⟩) id
      rw [List.filterMap_cons] at hgone
      split at hgone
      · exact hgone
      · next x hx =>
        refine (List.mem_cons.mp hgone).resolve_left fun heq => hnot ?_
        rw [heq, hx]
        exact List.mem_singleton_self x
    · intro _ tx htx
      rw [show s.holder = some tx from htx] at hholder
      cases hholder
    · intro tx htx
      rw [show s.holder = some tx from htx] at hholder
      cases hholder
    · intro r hr
      obtain ⟨hlt, hnot, -⟩ := h.cuts r hr
      show r < after.made ∧ r ∉ after.runs ∧ _
      rw [hanswers.same.made, hanswers.same.runs]
      refine ⟨hlt, hnot, fun tx htx => ?_⟩
      rw [show s.holder = some tx from htx] at hholder
      cases hholder
    · intro hlive hload
      show _ ∨ (after.runs = [] ∧ ∀ key, after.keys key = none)
      rw [hanswers.same.runs, hanswers.same.keys]
      exact h.unloaded hlive hload
  cases change with
  | create r =>
    have hmicro : Offline s { s with microtasks := s.microtasks ++ [r] } :=
      .of rfl rfl rfl rfl rfl rfl rfl rfl rfl
    exact hmicro.inv (hquiet rfl rfl)
  | unblock r phase => exact (Offline.need s r).inv (hquiet rfl rfl)
  | _ => exact hrecords

theorem committed_frame (s : State J) (change : Adopted J) :
    (s.committed change).holder = s.holder ∧ (s.committed change).isEnded = s.isEnded := by
  cases change with
  | unblock r phase => exact ⟨(Offline.need s r).holder, (Offline.need s r).isEnded⟩
  | _ => exact ⟨rfl, rfl⟩

/-- **The actions after a commit**, one after the other. -/
theorem Inv.committedAll (changes : List (Adopted J)) (h : s.Inv changes) (hholder : s.holder = none)
    (hended : s.isEnded = false) :
    (changes.foldl State.committed s).Inv [] ∧ (changes.foldl State.committed s).holder = none := by
  induction changes generalizing s with
  | nil => exact ⟨h, hholder⟩
  | cons change rest ih =>
    obtain ⟨hframe, hframe'⟩ := committed_frame s change
    exact ih (h.committed change hholder hended) (hframe.trans hholder) (hframe'.trans hended)

/-- **A transaction leaves the line.** -/
theorem Inv.settle (h : s.Inv s.owed) : s.settle.Inv s.settle.owed := by
  unfold State.settle
  cases hholder : s.holder with
  | none => exact h
  | some tx =>
    dsimp only
    split
    swap
    · exact h
    next hstage =>
    obtain ⟨hlive, hreading, hunloaded⟩ := h.loadAfter hholder true (.inl rfl)
    split
    · next hended =>
      rw [owed_of_ended hended] at h
      have hnone : ({ s with
          holder := none
          load := s.loadAfter tx true
          toRecords := .rejectCreated .ended s.toRecords tx.staging.changes } : State J).owed = [] :=
        owed_of_none rfl
      show Inv _ (owed _)
      rw [hnone]
      refine h.release hholder ?_ (fun hno => absurd (hno.symm.trans hended) (by decide)) .ended hlive
        hreading hunloaded
      rw [createdIn, if_neg fun hboth => absurd (hboth.2.symm.trans hended) (by decide)]
    · next hended =>
      have hended' : s.isEnded = false := Bool.eq_false_iff.mpr hended
      have howed : s.owed = tx.staging.changes := by
        rw [owed, hholder]
        exact if_pos ⟨hstage, hended'⟩
      rw [howed] at h
      set free : State J := { s with holder := none, load := s.loadAfter tx true } with hfree
      have hcreated : free.created = s.created := by
        rw [created_of_none (show free.holder = none from rfl), created_of_some hholder, createdIn,
          if_pos ⟨hstage, hended'⟩]
        rfl
      have hinv : free.Inv tx.staging.changes := by
        refine
          { h with
            fate := ?_
            holder := by rintro - _ ⟨⟩
            within := by rintro _ ⟨⟩
            shut := by rintro - _ ⟨⟩
            cuts := fun r hr => ⟨(h.cuts r hr).1, (h.cuts r hr).2.1, by rintro _ ⟨⟩⟩
            live := hlive
            reading := hreading
            staged := by rintro _ ⟨⟩
            unloaded := fun hl hload => .inr (hunloaded hl hload) }
        rw [hcreated]
        exact h.fate
      obtain ⟨hall, hnone⟩ := hinv.committedAll tx.staging.changes rfl hended'
      have hafter := Offline.needAll (tx.staging.changes.foldl State.committed free) tx.after
      rw [owed_of_none (hafter.holder.trans hnone)]
      exact hafter.inv hall

/-! ## Cut transactions -/

/-- An open transaction is cut off the line; its callers hear of it later. -/
theorem Inv.cutHolder (h : s.Inv s.owed) : s.cutHolder.Inv s.cutHolder.owed := by
  unfold State.cutHolder
  cases hholder : s.holder with
  | none => exact h
  | some tx =>
    dsimp only
    split
    swap
    · exact h
    next hopen =>
    have hstage : tx.stage ≠ .adopted := by rw [hopen]; decide
    have hended : s.isEnded = false := by
      by_contra hyes
      exact h.shut (by simpa using hyes) tx hholder hopen
    rw [owed_of_stage hholder hstage] at h
    set t : State J :=
      { s with holder := none, cuts := s.cuts ++ [tx.staging], load := s.loadAfter tx false } with ht
    rw [owed_of_none (show t.holder = none from rfl)]
    obtain ⟨hlive, hreading, hunloaded⟩ := h.loadAfter hholder false (.inr hstage)
    have hcuts : (t.cuts.flatMap fun staging => createds staging.changes) =
        (s.cuts.flatMap fun staging => createds staging.changes) ++ createds tx.staging.changes := by
      show ((s.cuts ++ [tx.staging]).flatMap _) = _
      rw [List.flatMap_append]
      simp
    refine
      { h with
        fate := ?_
        holder := nofun
        within := nofun
        shut := nofun
        cuts := ?_
        live := hlive
        reading := hreading
        staged := nofun
        unloaded := fun hl hload => .inr (hunloaded hl hload) }
    · intro r hr
      refine (h.fate r hr).imp id (.imp (fun hin => ?_) id)
      rw [created_of_some hholder, createdIn_of_stage hstage] at hin
      rw [created_of_none (show t.holder = none from rfl), hcuts]
      exact List.mem_append.mpr (List.mem_append.mp hin).symm
    · intro r hr
      rw [hcuts] at hr
      rcases List.mem_append.mp hr with hr | hr
      · exact ⟨(h.cuts r hr).1, (h.cuts r hr).2.1, nofun⟩
      · obtain ⟨hlt, hnot⟩ :=
          (h.holder hended tx hholder hstage).staged.fresh r (mem_new_of_mem_createds hr)
        exact ⟨hlt, hnot, nofun⟩

/-- The callers of a cut transaction hear that it was discarded. -/
theorem Inv.settleCut (h : s.Inv s.owed) (n : Nat) : (s.settleCut n).Inv (s.settleCut n).owed := by
  unfold State.settleCut
  cases hcut : s.cuts[n]? with
  | none => exact h
  | some staging =>
    dsimp only
    have hanswers := Records.Answers.rejectCreated .discarded s.toRecords staging.changes
    have hmem (r : Nat) (hr : r ∈ createds staging.changes) :
        r ∈ s.cuts.flatMap fun staging => createds staging.changes :=
      List.mem_flatMap.mpr ⟨staging, List.mem_of_getElem? hcut, hr⟩
    set after := Records.rejectCreated .discarded s.toRecords staging.changes with hafter
    set t : State J := { s with cuts := s.cuts.eraseIdx n, toRecords := after } with ht
    have howed : t.owed = s.owed := rfl
    rw [howed]
    have hcuts (r : Nat) (hr : r ∈ t.cuts.flatMap fun staging => createds staging.changes) :
        r ∈ s.cuts.flatMap fun staging => createds staging.changes := by
      obtain ⟨x, hx, hr⟩ := List.mem_flatMap.mp hr
      exact List.mem_flatMap.mpr ⟨x, List.mem_of_mem_eraseIdx hx, hr⟩
    refine ⟨?_, ?_, ?_, h.dropped, ?_, ?_, ?_, ?_, ?_, ?_, ?_, h.shut, ?_, h.live, h.reading, h.staged, ?_⟩
    · exact fun hdropped => hanswers.same.kept (h.kept hdropped)
    · intro hended
      show after.counted = after.active + _
      rw [hafter, Records.rejectCreated_counted, hanswers.same.active]
      exact h.counted hended
    · intro hended
      show after.counted = 0
      rw [hafter, Records.rejectCreated_counted]
      exact h.ended hended
    · exact fun r => hanswers.once (h.once r)
    · intro hended r hr
      have hr' : r ∈ s.runs := hanswers.same.runs ▸ hr
      show (after.run r).waiters.settled = none
      rw [hanswers.other r fun hin => (h.cuts r (hmem r hin)).2.1 hr']
      exact h.unsettled hended r hr'
    · exact fun hended r hr => hanswers.settled (h.settled hended r (hanswers.same.runs ▸ hr))
    · intro hended r hr
      show r ∉ after.runs
      rw [hanswers.same.runs]
      exact h.gone hended r hr
    · intro r hr
      have hr' : (after.run r).waiters.settled = none := hr
      have hnot : r ∉ createds staging.changes := hanswers.not_mem hr'
      show (s.isEnded = false ∧ (r ∈ after.runs ∨ _)) ∨ r ∈ t.created ∨
        ((after.run r).started = false ∧ (after.run r).waiters.waiting = [])
      rw [hanswers.other r hnot] at hr' ⊢
      rw [hanswers.same.runs, hanswers.same.started]
      refine (h.fate r hr').imp id (.imp (fun hin => ?_) id)
      -- another cut transaction created it, or the one on the line
      refine (List.mem_append.mp hin).elim (fun hholder => List.mem_append_left _ hholder) fun hcutIn => ?_
      obtain ⟨x, hx, hrx⟩ := List.mem_flatMap.mp hcutIn
      refine List.mem_append_right _ (List.mem_flatMap.mpr ⟨x, ?_, hrx⟩)
      obtain ⟨m, hm⟩ := List.mem_iff_getElem?.mp hx
      refine List.mem_eraseIdx_iff_getElem?.mpr ⟨m, ?_, hm⟩
      rintro rfl
      rw [hcut] at hm
      cases hm
      exact hnot hrx
    · intro hended tx htx hstage
      have htx' := h.holder hended tx htx hstage
      refine { htx' with staged := ?_, unsettled := ?_, finishing := ?_ }
      · refine { htx'.staged with fresh := ?_, keys := ?_, free := ?_, blocked := ?_ }
        · show ∀ r ∈ _, r < after.made ∧ r ∉ after.runs
          rw [hanswers.same.made, hanswers.same.runs]
          exact htx'.staged.fresh
        · show (List.filterMap (fun r => (after.run r).key) _).Nodup
          simp only [hanswers.same.key]
          exact htx'.staged.keys
        · intro r hr key hk
          show after.keys key = none ∨ after.keys key = _
          rw [hanswers.same.keys]
          exact htx'.staged.free r hr key ((hanswers.same.key r).symm.trans hk)
        · intro r phase hin
          show r ∈ after.runs ∧ (after.run r).phase = _ ∧ _
          rw [hanswers.same.runs, hanswers.same.phase]
          exact htx'.staged.blocked r phase hin
      · intro r hr
        show (after.run r).waiters.settled = none
        rw [hanswers.other r fun hin => (h.cuts r (hmem r hin)).2.2 tx htx hr]
        exact htx'.unsettled r hr
      · show ∀ f, _ → f < after.made ∧ _
        rw [hanswers.same.made]
        exact htx'.finishing
    · intro tx htx
      show _ → _ → ∀ c ∈ s.definition.concurrency, after.active + _ - _ ≤ _
      rw [hanswers.same.active]
      exact h.within tx htx
    · intro r hr
      show r < after.made ∧ r ∉ after.runs ∧ _
      rw [hanswers.same.made, hanswers.same.runs]
      exact h.cuts r (hcuts r hr)
    · intro hlive hload
      show _ ∨ (after.runs = [] ∧ ∀ key, after.keys key = none)
      rw [hanswers.same.runs, hanswers.same.keys]
      exact h.unloaded hlive hload

/-! ## The end of the object -/

theorem cutHolder_frame (s : State J) :
    s.cutHolder.toRecords = s.toRecords ∧ s.cutHolder.isEnded = s.isEnded ∧
      (∀ tx, s.cutHolder.holder = some tx → s.holder = some tx ∧ tx.stage ≠ .open) := by
  unfold State.cutHolder
  cases hholder : s.holder with
  | none =>
    refine ⟨rfl, rfl, fun tx htx => ?_⟩
    rw [show s.holder = some tx from htx] at hholder
    cases hholder
  | some tx =>
    dsimp only
    split
    · exact ⟨rfl, rfl, nofun⟩
    · next hstage =>
      refine ⟨rfl, rfl, fun tx' htx' => ?_⟩
      cases hholder.symm.trans htx'
      exact ⟨rfl, hstage⟩

/-- What the end of the object sets, in one equation. -/
theorem endObject_eq (h : s.isEnded = false) :
    s.endObject = { s.cutHolder with
      isEnded := true, job := none, waiting := [], toRecords := s.toRecords.ended } := by
  unfold State.endObject
  rw [if_neg (by rw [h]; decide)]
  obtain ⟨_, _, _, _, _, _, _, _, _, _, _, _, holder, _, _⟩ := s
  cases holder with
  | none => rfl
  | some tx =>
    unfold State.cutHolder
    dsimp only
    split <;> rfl

/-- **The object ends**: every wait is answered, and no run counts any more. -/
theorem Inv.endObject (h : s.Inv s.owed)
    (htimely : s.isEnded = false → ∀ tx ∈ s.holder, tx.stage = .adopted →
      ∀ change ∈ tx.staging.changes, change.gone = none ∧ change.uncounts = false) :
    s.endObject.Inv s.endObject.owed := by
  cases hended : s.isEnded with
  | true =>
    have heq : s.endObject = s := if_pos hended
    rw [heq]
    exact h
  | false =>
    rw [endObject_eq hended]
    obtain ⟨hrecords, hframe, hholders⟩ := cutHolder_frame s
    have hcut := h.cutHolder
    have hnothing : (∀ change ∈ s.cutHolder.owed, change.gone = none ∧ change.uncounts = false) := by
      intro change hin
      unfold owed at hin
      cases hholder : s.cutHolder.holder with
      | none => rw [hholder] at hin; cases hin
      | some tx =>
        rw [hholder] at hin
        obtain ⟨hwas, -⟩ := hholders tx hholder
        simp only at hin
        split at hin
        · next hadopted => exact htimely hended tx hwas hadopted.1 change hin
        · cases hin
    have hended' : s.cutHolder.isEnded = false := hframe.trans hended
    generalize hu : s.cutHolder = u at hcut hrecords hholders hnothing hended'
    rw [← hrecords]
    have hanswers := Records.Answers.ended u.toRecords
    have hcounted := hcut.counted hended'
    have hbooks := hcut.books hended'
    have hactive : 0 ≤ u.active := by
      rw [hbooks.active]
      exact Int.natCast_nonneg _
    have hzero : u.toRecords.ended.counted = 0 := by
      rw [Records.ended_counted _ hactive, hcounted]
      have : u.owed.countP Adopted.uncounts = 0 :=
        List.countP_eq_zero.mpr fun change hin => by rw [(hnothing change hin).2]; decide
      omega
    set after := u.toRecords.ended with hafter
    set t : State J :=
      { u with isEnded := true, job := none, waiting := [], toRecords := after } with ht
    have hcreated (r : Nat) (hr : r ∈ u.created) : r ∈ t.created := by
      cases hholder : u.holder with
      | none =>
        rw [created_of_none hholder] at hr
        rwa [created_of_none (show t.holder = none from hholder)]
      | some tx =>
        rw [created_of_some hholder] at hr
        rw [created_of_some (show t.holder = some tx from hholder)]
        refine (List.mem_append.mp hr).elim (fun hin => List.mem_append_left _ ?_)
          fun hin => List.mem_append_right _ hin
        rw [createdIn, if_neg fun hboth => Bool.noConfusion hboth.2]
        unfold createdIn at hin
        split at hin
        · cases hin
        · exact hin
    rw [owed_of_ended (show t.isEnded = true from rfl)]
    refine ⟨?_, Bool.noConfusion, fun _ => hzero, fun _ => rfl, ?_, Bool.noConfusion, ?_,
      Bool.noConfusion, ?_, Bool.noConfusion, ?_, ?_, ?_,
      hcut.live, hcut.reading, hcut.staged, ?_⟩
    · exact fun _ => hanswers.same.kept hbooks
    · exact fun r => hanswers.once (hcut.once r)
    · intro _ r hr
      exact hanswers.answered (hanswers.same.runs ▸ hr)
    · intro r hr
      have hr' : (after.run r).waiters.settled = none := hr
      have hnot : r ∉ u.runs := hanswers.not_mem hr'
      refine .inr ?_
      show r ∈ t.created ∨ ((after.run r).started = false ∧ (after.run r).waiters.waiting = [])
      rw [hanswers.other r hnot] at hr' ⊢
      rw [hanswers.same.started]
      rcases hcut.fate r hr' with ⟨-, hin | hgone⟩ | hin | horphan
      · exact absurd hin hnot
      · obtain ⟨change, hmem, hchange⟩ := List.mem_filterMap.mp hgone
        rw [(hnothing change hmem).1] at hchange
        cases hchange
      · exact .inl (hcreated r hin)
      · exact .inr horphan
    · intro tx htx
      show _ → _ → ∀ c ∈ u.definition.concurrency, after.active + _ - _ ≤ _
      rw [hanswers.same.active]
      exact hcut.within tx htx
    · exact fun _ tx htx => (hholders tx htx).2
    · intro r hr
      show r < after.made ∧ r ∉ after.runs ∧ _
      rw [hanswers.same.made, hanswers.same.runs]
      exact hcut.cuts r hr
    · intro hlive hload
      show _ ∨ (after.runs = [] ∧ ∀ key, after.keys key = none)
      rw [hanswers.same.runs, hanswers.same.keys]
      exact hcut.unloaded hlive hload

/-- The attempt of the object is dropped. -/
theorem Inv.drop (h : s.Inv s.owed) : s.drop.Inv s.drop.owed := by
  unfold State.drop
  split
  · next hboth =>
    obtain ⟨hended, hnone⟩ := hboth
    have hholder : s.holder = none := Option.isNone_iff_eq_none.mp hnone
    rw [owed_of_none hholder] at h
    set t : State J := { s with isDropped := true, toRecords := s.toRecords.dropped } with ht
    rw [owed_of_none (show t.holder = none from hholder)]
    refine
      { h with
        kept := nofun
        counted := fun hno => absurd (hno.symm.trans hended) (by decide)
        dropped := fun _ => hended
        unsettled := fun _ r hr => absurd hr List.not_mem_nil
        settled := fun _ r hr => absurd hr List.not_mem_nil
        gone := fun _ r hr => absurd hr List.not_mem_nil
        fate := ?_
        holder := fun hno => absurd (hno.symm.trans hended) (by decide)
        cuts := ?_
        unloaded := fun _ _ => .inr ⟨rfl, fun _ => rfl⟩ }
    · intro r hr
      rcases h.fate r hr with ⟨hno, -⟩ | hrest
      · exact absurd (hno.symm.trans hended) (by decide)
      · exact .inr hrest
    · exact fun r hr => ⟨(h.cuts r hr).1, List.not_mem_nil, (h.cuts r hr).2.2⟩
  · exact h

/-- What was read is kept until a transaction takes it. -/
theorem Inv.loadRecords (h : s.Inv due) (stored : Stored J) : (s.loadRecords stored).Inv due := by
  unfold State.loadRecords
  split
  · next hload =>
    split
    · next hboth =>
      refine
        { h with
          live := fun hlive => absurd (hlive.symm.trans hboth.2) (by decide)
          reading := fun _ _ => hboth.1
          staged := ?_
          unloaded := fun hlive _ => h.unloaded hlive (by rw [hload]; nofun)
          holder := fun hended tx htx hstage => { h.holder hended tx htx hstage with } }
      intro tx htx hl
      have hstaged := h.staged tx htx hl
      rw [hload] at hstaged
      cases hstaged
    · exact h
  · exact h

end ThreeXhaust.Chord.Jobs.State
