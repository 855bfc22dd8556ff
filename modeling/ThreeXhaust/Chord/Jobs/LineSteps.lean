import ThreeXhaust.Chord.Jobs.Invariant

/-!
# A transaction on the line

What the steps before a commit do to the invariant: an attempt goes live, callers wait, a transaction
takes the line, starts are staged, and a persisted job's runs are loaded.
-/

namespace ThreeXhaust.Chord.Jobs.State

variable {J : Type} {s t : State J} {due : List (Adopted J)} {r : Nat} {tx : Transaction J}

/-- The changes whose actions are still due: adopted, and the object has not ended. -/
def owed (s : State J) : List (Adopted J) :=
  match s.holder with
  | some tx => if tx.stage = .adopted ∧ s.isEnded = false then tx.staging.changes else []
  | none => []

theorem owed_of_none (h : s.holder = none) : s.owed = [] := by
  rw [owed, h]

theorem owed_of_stage (h : s.holder = some tx) (hstage : tx.stage ≠ .adopted) : s.owed = [] := by
  rw [owed, h]
  exact if_neg fun hadopted => hstage hadopted.1

theorem owed_of_ended (h : s.isEnded = true) : s.owed = [] := by
  rw [owed]
  split
  · exact if_neg fun hadopted => by rw [h] at hadopted; cases hadopted.2
  · rfl

theorem created_of_none (h : s.holder = none) :
    s.created = s.cuts.flatMap fun staging => createds staging.changes := by
  rw [created, h]
  rfl

theorem created_of_some (h : s.holder = some tx) :
    s.created = s.createdIn tx ++ s.cuts.flatMap fun staging => createds staging.changes := by
  rw [created, h]

theorem createdIn_of_stage (hstage : tx.stage ≠ .adopted) :
    s.createdIn tx = createds tx.staging.changes :=
  if_neg fun hadopted => hstage hadopted.1

/-! ## The attempts and the waits -/

/-- An attempt that goes live changes no run. -/
theorem Inv.attach (h : s.Inv due) (j : Nat) : (s.attach j).Inv due := by
  unfold State.attach
  split
  · exact h
  · next hguard =>
    have hlive : ({ s with job := some j, live := true, waiting := [] } : State J).Inv due := by
      refine { h with holder := ?_, live := ?_, unloaded := nofun }
      · intro hended tx htx hstage
        exact { h.holder hended tx htx hstage with live := fun _ => rfl }
      · intro _ hpersisted
        have hdone : s.load.isDone = true := by
          by_contra hnot
          exact hguard (.inr ⟨hpersisted, Bool.eq_false_iff.mpr hnot⟩)
        cases hload : s.load with
        | done => rfl
        | _ => rw [hload] at hdone; cases hdone
    exact (Offline.foldl Offline.dispatch s.waiting _).inv hlive

/-- A new definition keeps the invariant where the started runs stay within its concurrency. -/
theorem Inv.redefine (h : s.Inv due) (definition : Option (JobDefinition J))
    (hwithin : ∀ d ∈ definition, ∀ tx ∈ s.holder, tx.stage ≠ .adopted → tx.staging.started ≠ [] →
      ∀ c ∈ d.concurrency, s.activeIn tx.staging ≤ (c : Nat)) : (s.redefine definition).Inv due := by
  cases definition with
  | none =>
    have hsame : Offline s (s.redefine none) := .of rfl rfl rfl rfl rfl rfl rfl rfl rfl
    exact hsame.inv h
  | some d =>
    -- the entries of the runs in turn
    have hfold (list : List Nat) (ρ : Records J) (hsub : ∀ r ∈ list, r ∈ ρ.runs) :
        let shown := list.foldl
          (fun ρ r => if (ρ.run r).entry.isSome then (ρ.replaceEntry d r).1 else ρ) ρ
        Records.SameRuns ρ shown ∧ shown.runs = ρ.runs ∧ shown.keys = ρ.keys ∧
          shown.active = ρ.active ∧ shown.counted = ρ.counted ∧
          (∀ r, (shown.run r).phase = (ρ.run r).phase) ∧ (ρ.Kept none → shown.Kept none) := by
      induction list generalizing ρ with
      | nil => exact ⟨.refl, rfl, rfl, rfl, rfl, fun _ => rfl, id⟩
      | cons r rest ih =>
        have hr := hsub r List.mem_cons_self
        rw [List.foldl_cons]
        split
        · have hsub' : ∀ x ∈ rest, x ∈ (ρ.replaceEntry d r).1.runs := fun x hx => by
            rw [Records.replaceEntry_runs]
            exact hsub x (List.mem_cons_of_mem _ hx)
          obtain ⟨hsame, hruns, hkeys, hactive, hcounted, hphase, hkept⟩ := ih _ hsub'
          have hfirst : Records.SameRuns ρ (ρ.replaceEntry d r).1 := .replaceEntry d r
          refine ⟨hfirst.trans hsame, ?_, ?_, ?_, ?_, fun x => ?_, fun hk => hkept (hk.replaceEntry hr).2⟩
          · rw [hruns, Records.replaceEntry_runs]
          · rw [hkeys, Records.replaceEntry_keys]
          · rw [hactive, Records.replaceEntry_active]
          · rw [hcounted, Records.replaceEntry_counted]
          · rw [hphase, Records.replaceEntry_phase]
        · exact ih ρ fun x hx => hsub x (List.mem_cons_of_mem _ hx)
    obtain ⟨hsame, hruns, hkeys, hactive, hcounted, hphase, hkept⟩ :=
      hfold s.runs s.toRecords fun _ hr => hr
    have hquiet : Quiet s (s.redefine (some d)) :=
      ⟨hsame.made, hruns, hkeys, hactive, hcounted, hsame.key, hsame.waiters, hsame.started,
        fun r => by rw [show ((s.redefine (some d)).run r).phase = _ from hphase r], rfl, rfl, rfl,
        rfl, rfl, rfl, rfl⟩
    refine hquiet.inv h hkept fun tx htx _ => ?_
    unfold Within activeIn
    rw [hquiet.active]
    exact hwithin d rfl tx htx

/-- The waits of one run may change, but not whether they are answered. -/
theorem Inv.setWaiters (h : s.Inv due) {f : Oneshot (Answer J) → Oneshot (Answer J)}
    (honce : (f (s.run r).waiters).Once)
    (hsettled : (f (s.run r).waiters).settled = (s.run r).waiters.settled)
    (hwaiting : (s.run r).waiters.settled = none → (s.run r).started = false →
      (s.run r).waiters.waiting = [] →
      (f (s.run r).waiters).waiting = [] ∨ (s.isEnded = false ∧ r ∈ s.runs)) :
    (s.setRun r fun run => { run with waiters := f run.waiters }).Inv due := by
  set t := s.setRun r fun run => { run with waiters := f run.waiters } with ht
  have hrun (x : Nat) : t.run x =
      if x = r then { s.run r with waiters := f (s.run r).waiters } else s.run x := by
    rw [ht]
    exact Records.setRun_run s.toRecords r (fun run => { run with waiters := f run.waiters }) x
  have hrecords : Records.SameRecords s.toRecords t.toRecords := by
    refine ⟨rfl, rfl, rfl, rfl, rfl, rfl, fun x => ?_⟩
    rw [hrun]
    split
    · next heq => subst heq; rfl
    · rfl
  have hsettled' (x : Nat) : (t.run x).waiters.settled = (s.run x).waiters.settled := by
    rw [hrun]
    split
    · next heq => subst heq; exact hsettled
    · rfl
  refine { h with kept := ?_, once := ?_, unsettled := ?_, settled := ?_, fate := ?_, holder := ?_ }
  · exact fun hdropped => hrecords.kept (h.kept hdropped)
  · intro x
    rw [hrun]
    split
    · exact honce
    · exact h.once x
  · intro hended x hx
    rw [hsettled']
    exact h.unsettled hended x hx
  · intro hended x hx
    rw [hsettled']
    exact h.settled hended x hx
  · intro x hx
    rw [hsettled'] at hx
    rcases h.fate x hx with hlive | hcreated | ⟨hstarted, hnone⟩
    · exact .inl hlive
    · exact .inr (.inl hcreated)
    · rw [hrecords.started]
      by_cases heq : x = r
      · subst heq
        rcases hwaiting hx hstarted hnone with hnone' | ⟨hended, hmem⟩
        · refine .inr (.inr ⟨hstarted, ?_⟩)
          rw [hrun, if_pos rfl]
          exact hnone'
        · exact .inl ⟨hended, .inl hmem⟩
      · refine .inr (.inr ⟨hstarted, ?_⟩)
        rw [hrun, if_neg heq]
        exact hnone
  · intro hended tx htx hstage
    have htx' := h.holder hended tx htx hstage
    refine { htx' with staged := ?_, unsettled := fun x hx => (hsettled' x).trans (htx'.unsettled x hx) }
    refine { htx'.staged with keys := ?_, free := ?_, blocked := ?_ }
    · simp only [hrecords.key]
      exact htx'.staged.keys
    · intro x hx key hk
      rw [hrecords.key] at hk
      exact htx'.staged.free x hx key hk
    · intro x phase hx
      rw [hrecords.phase]
      exact htx'.staged.blocked x phase hx

/-- A caller waits for a run. -/
theorem Inv.wait (h : s.Inv due) (r : Nat) : (s.wait r).Inv due := by
  unfold State.wait
  split
  · next hguard =>
    refine h.setWaiters (h.once r).wait (Oneshot.wait_settled _) fun hnone hstarted _ => ?_
    have hmem : r ∈ s.runs := hguard.resolve_right (by rw [hstarted]; nofun)
    -- the waiters of an ended object's runs were answered
    refine .inr ⟨?_, hmem⟩
    by_contra hended
    have hsome := h.settled (by simpa using hended) r hmem
    rw [hnone] at hsome
    cases hsome
  · exact h

theorem Inv.leave (h : s.Inv due) (r w : Nat) :
    (s.setRun r fun run => { run with waiters := run.waiters.leave w }).Inv due :=
  h.setWaiters ((h.once r).leave w) (Oneshot.leave_settled _ w) fun _ _ hnone =>
    .inl (Oneshot.leave_waiting_nil w hnone)

/-! ## Taking the line -/

/-- A transaction that begins has made nothing. -/
theorem begin_new (s : State J) (body : Body J) :
    (s.begin body).staging.changes.filterMap Adopted.new = [] ∧
      createds (s.begin body).staging.changes = [] := by
  have hnone {changes : List (Adopted J)} (hnew : changes.filterMap Adopted.new = []) :
      changes.filterMap Adopted.new = [] ∧ createds changes = [] :=
    ⟨hnew, List.eq_nil_iff_forall_not_mem.mpr fun r hr => by
      have := mem_new_of_mem_createds hr
      rw [hnew] at this
      cases this⟩
  apply hnone
  cases body with
  | plugin => rfl
  | finish r => rfl
  | record r change =>
    show (if r ∈ s.runs then [change.change r] else []).filterMap Adopted.new = []
    split
    · cases change <;> rfl
    · rfl
  | outcome r ended => rfl
  | reserve r => rfl
  | progress r value =>
    show (Adopted.state r value :: if (s.run r).restarts ≠ 0 then _ else []).filterMap Adopted.new = []
    split <;> rfl
  | retry runs distinct =>
    show (s.unblocks runs).filterMap Adopted.new = []
    unfold unblocks
    rw [List.filterMap_map]
    exact List.filterMap_eq_nil_iff.mpr fun r _ => rfl

/-- **What a body stages is right as it is staged.** -/
theorem TxSound.begin (s : State J) (body : Body J) : s.TxSound (s.begin body) := by
  obtain ⟨hnew, -⟩ := begin_new s body
  have hplain {changes : List (Adopted J)} {leaving : Option Nat}
      (hnew : changes.filterMap Adopted.new = [])
      (hunblock : changes.filterMap Adopted.unblocked = []) : Staged s.toRecords leaving changes := by
    have hnone (r : Nat) (phase : Phase) : .unblock r phase ∉ changes := fun hmem => by
      have : r ∈ changes.filterMap Adopted.unblocked := List.mem_filterMap.mpr ⟨_, hmem, rfl⟩
      rw [hunblock] at this
      cases this
    refine ⟨?_, ?_, ?_, ?_, ?_, fun r phase hmem => absurd hmem (hnone r phase),
      fun ⟨r, phase, hmem⟩ => absurd hmem (hnone r phase)⟩
    · rw [hnew]; exact List.nodup_nil
    · rw [hnew]; nofun
    · rw [hnew]; exact List.nodup_nil
    · rw [hnew]; nofun
    · rw [hunblock]; exact List.nodup_nil
  have hstaged : Staged s.toRecords (s.begin body).staging.finishing (s.begin body).staging.changes := by
    cases body with
    | plugin => exact hplain hnew rfl
    | finish r => exact hplain hnew rfl
    | record r change =>
      refine hplain hnew ?_
      show (if r ∈ s.runs then [change.change r] else []).filterMap Adopted.unblocked = []
      split
      · cases change <;> rfl
      · rfl
    | outcome r ended => exact hplain hnew rfl
    | reserve r => exact hplain hnew rfl
    | progress r value =>
      refine hplain hnew ?_
      show (Adopted.state r value :: if (s.run r).restarts ≠ 0 then _ else []).filterMap _ = []
      split <;> rfl
    | retry runs distinct =>
      -- the runs still blocked, each once
      set still := runs.filter fun r => r ∈ s.runs && (s.run r).phase = .blocked with hstill
      have hchanges : (s.begin (.retry runs distinct)).staging.changes = s.unblocks runs := rfl
      have hunblocked : (s.unblocks runs).filterMap Adopted.unblocked = still := by
        unfold unblocks
        rw [List.filterMap_map]
        exact List.filterMap_some
      refine ⟨?_, ?_, ?_, ?_, ?_, ?_, ?_⟩
      · rw [hnew]; exact List.nodup_nil
      · rw [hnew]; nofun
      · rw [hnew]; exact List.nodup_nil
      · rw [hnew]; nofun
      · rw [hchanges, hunblocked]
        exact distinct.filter _
      · intro r phase hmem
        obtain ⟨x, hx, heq⟩ := List.mem_map.mp (hmem : _ ∈ s.unblocks runs)
        cases heq
        have hblocked := (List.mem_filter.mp hx).2
        simp only [Bool.and_eq_true, decide_eq_true_eq] at hblocked
        refine ⟨hblocked.1, hblocked.2, ?_⟩
        split
        · nofun
        · split <;> nofun
      · intro _ change hmem
        obtain ⟨x, -, rfl⟩ := List.mem_map.mp (hmem : _ ∈ s.unblocks runs)
        rfl
  refine ⟨hstaged, ?_, ?_, ?_, ?_, ?_, ?_⟩
  · cases body <;> first | (intro _; rfl) | (intro hstarts; cases hstarts)
  · cases body <;> first | exact fun _ => ⟨rfl, rfl, fun _ => hnew⟩ | (intro hstarts; cases hstarts)
  · cases body <;> (intro hloads; cases hloads)
  · rw [hnew]; nofun
  · cases body <;> exact fun hne => absurd rfl hne
  · cases body with
    | finish r =>
      intro f hf
      have hf' : (if r < s.made then some r else none) = some f := hf
      split at hf'
      · next hlt => cases hf'; exact ⟨hlt, List.not_mem_nil⟩
      · cases hf'
    | _ => intro f hf; cases hf

/-- **The first caller in the line takes it.** -/
theorem Inv.take (h : s.Inv s.owed) : s.take.Inv s.take.owed := by
  unfold State.take
  split
  · next body rest hholder hqueue =>
    split
    · next hended =>
      have hrest : Offline s { s with queue := rest } := .of rfl rfl rfl rfl rfl rfl rfl rfl rfl
      exact hrest.inv h
    · next hended =>
      have hended' : s.isEnded = false := Bool.eq_false_iff.mpr hended
      obtain ⟨hnew, hcreated⟩ := begin_new s body
      have hstage : (s.begin body).stage ≠ .adopted := by
        cases body <;> nofun
      have howed : s.owed = [] := owed_of_none hholder
      rw [howed] at h
      rw [owed_of_stage rfl hstage]
      have hcreated' : ({ s with queue := rest, holder := some (s.begin body) } : State J).created =
          s.created := by
        rw [created_of_some rfl, created_of_none hholder, createdIn_of_stage hstage, hcreated]
        rfl
      refine
        { h with
          fate := ?_
          holder := ?_
          within := ?_
          shut := ?_
          cuts := ?_
          staged := ?_
          unloaded := ?_ }
      · rw [hcreated']
        exact h.fate
      · rintro - tx htx -
        cases htx
        exact { TxSound.begin s body with }
      · rintro tx htx - hne
        cases htx
        cases body <;> exact absurd rfl hne
      · exact fun hyes => absurd hyes hended
      · intro r hr
        refine ⟨(h.cuts r hr).1, (h.cuts r hr).2.1, fun tx htx => ?_⟩
        cases htx
        rw [hnew]
        nofun
      · rintro tx htx hloads
        cases htx
        cases body <;> cases hloads
      · intro hlive hload
        rcases h.unloaded hlive hload with ⟨tx, htx, -⟩ | hempty
        · rw [hholder] at htx
          cases htx
        · exact .inr hempty
  · exact h

/-! ## Runs that are made -/

/-- Runs that are only made leave the books as they are. -/
theorem kept_made {s t : Records J} {leaving : Option Nat} (h : s.Kept leaving) (hmade : s.made ≤ t.made)
    (hruns : t.runs = s.runs) (hkeys : t.keys = s.keys) (hactive : t.active = s.active)
    (hrunning : t.running = s.running) (htags : t.tags = s.tags)
    (hrun : ∀ r, r < s.made → t.run r = s.run r) : t.Kept leaving := by
  have hold (r : Nat) (hr : r ∈ s.runs) : t.run r = s.run r := hrun r (h.made r hr)
  refine ⟨hruns ▸ h.nodup, ?_, ?_, ?_, ?_, ?_, ?_, hrunning ▸ h.tags, ?_⟩
  · rw [hruns]
    exact fun r hr => lt_of_lt_of_le (h.made r hr) hmade
  · intro key r hr
    rw [hkeys] at hr
    obtain ⟨hmem, hk⟩ := h.keysRun key r hr
    rw [hruns, hold r hmem]
    exact ⟨hmem, hk⟩
  · intro r hr hne key hk
    rw [hruns] at hr
    rw [hold r hr] at hk
    rw [hkeys]
    exact h.runKeys r hr hne key hk
  · rw [hactive, h.active, hruns]
    congr 1
    refine List.countP_congr fun r hr => ?_
    unfold Records.counts
    rw [hold r hr]
  · rw [hrunning, hruns, h.entries]
    exact List.map_congr_left fun r hr => by rw [hold r hr]
  · intro r hr e he
    rw [hruns] at hr
    rw [hold r hr] at he
    exact h.owner r hr e he
  · rw [hrunning, htags]
    exact h.tagged

theorem unblocked_creates (started : List Nat) :
    (started.map (Adopted.create (J := J))).filterMap Adopted.unblocked = [] := by
  induction started with
  | nil => rfl
  | cons r rest ih => exact ih

/-- **What a start stages is new**, and its key is free or the finishing run's. -/
theorem TxSound.stageRun (h : s.TxSound tx) (args : J) (hmade : ∀ r ∈ s.runs, r < s.made)
    (hstage : tx.stage = .open) (hstarts : tx.starts = true) (hlive : s.live = true)
    {key : Option String}
    (hknown : ∀ k, key = some k → s.known tx.staging k = none ∨
      s.known tx.staging k = tx.staging.finishing) :
    (s.stageRun tx args key).TxSound
      { tx with
        staging :=
          { tx.staging with
            started := tx.staging.started ++ [s.made]
            changes := tx.staging.changes ++ [.create s.made] } } := by
  have hrun (r : Nat) (hr : r < s.made) : (s.stageRun tx args key).run r = s.run r :=
    Function.update_of_ne (by omega) _ _
  have hnew : (s.stageRun tx args key).run s.made = s.newRun args key :=
    Function.update_self _ _ _
  have hchanges : tx.staging.changes = tx.staging.started.map .create := by
    rw [h.starts hstarts, hstage, if_neg (by decide), List.append_nil]
  have hchanges' : tx.staging.changes ++ [.create s.made] =
      (tx.staging.started ++ [s.made]).map .create := by
    rw [hchanges, List.map_append]
    rfl
  have hstarted (r : Nat) (hr : r ∈ tx.staging.started) : r < s.made ∧ r ∉ s.runs :=
    h.staged.fresh r (by rwa [hchanges, new_creates])
  have hnodup : tx.staging.started.Nodup := by
    have := h.staged.nodup
    rwa [hchanges, new_creates] at this
  -- no other start of the transaction has the key, and no run but the finishing one
  have hfresh (k : String) (hk : key = some k) :
      (∀ r ∈ tx.staging.started, (s.run r).key ≠ some k) ∧
        (s.keys k = none ∨ s.keys k = tx.staging.finishing) := by
    have hboth := hknown k hk
    unfold known at hboth
    cases hfind : tx.staging.started.find? fun r => (s.run r).key = some k with
    | none =>
      rw [hfind, Option.none_or] at hboth
      exact ⟨fun r hr => by simpa using List.find?_eq_none.mp hfind r hr, hboth⟩
    | some r =>
      rw [hfind, Option.some_or] at hboth
      have hmem := List.mem_of_find?_eq_some hfind
      exact absurd hmem (h.finishing r (hboth.resolve_left nofun).symm).2
  have hkeysOld : (tx.staging.started.filterMap fun r => ((s.stageRun tx args key).run r).key) =
      tx.staging.started.filterMap fun r => (s.run r).key :=
    List.filterMap_congr fun r hr => by rw [hrun r (hstarted r hr).1]
  refine ⟨⟨?_, ?_, ?_, ?_, ?_, ?_, ?_⟩, ?_, ?_, h.loads, ?_, fun _ => hlive, ?_⟩
  · rw [hchanges', new_creates]
    refine List.nodup_append.mpr ⟨hnodup, List.nodup_singleton _, fun r hr r' hr' => ?_⟩
    cases List.mem_singleton.mp hr'
    exact (hstarted r hr).1.ne
  · rw [hchanges', new_creates]
    intro r hr
    rcases List.mem_append.mp hr with hr | hr
    · exact ⟨Nat.lt_succ_of_lt (hstarted r hr).1, (hstarted r hr).2⟩
    · cases List.mem_singleton.mp hr
      exact ⟨Nat.lt_succ_self _, fun hmem => absurd (hmade _ hmem) (lt_irrefl _)⟩
  · rw [hchanges', new_creates, List.filterMap_append, hkeysOld]
    have hold : (tx.staging.started.filterMap fun r => (s.run r).key).Nodup := by
      have := h.staged.keys
      rwa [hchanges, new_creates] at this
    have hlast : ([s.made].filterMap fun r => ((s.stageRun tx args key).run r).key) = key.toList := by
      rw [List.filterMap_cons, hnew]
      cases key <;> rfl
    rw [hlast]
    refine List.nodup_append.mpr ⟨hold, ?_, fun k hk k' hk' => ?_⟩
    · cases key with
      | none => exact List.nodup_nil
      | some k => exact List.nodup_singleton k
    · rintro rfl
      obtain ⟨r, hr, hrk⟩ := List.mem_filterMap.mp hk
      have hkey : key = some k := Option.mem_toList.mp hk'
      exact (hfresh k hkey).1 r hr hrk
  · rw [hchanges', new_creates]
    intro r hr k hk
    rcases List.mem_append.mp hr with hr | hr
    · rw [hrun r (hstarted r hr).1] at hk
      exact h.staged.free r (by rwa [hchanges, new_creates]) k hk
    · cases List.mem_singleton.mp hr
      rw [hnew] at hk
      exact (hfresh k hk).2
  · rw [hchanges', unblocked_creates]
    exact List.nodup_nil
  · rw [hchanges']
    rintro r phase hmem
    obtain ⟨x, -, hx⟩ := List.mem_map.mp hmem
    cases hx
  · rw [hchanges']
    rintro ⟨r, phase, hmem⟩
    obtain ⟨x, -, hx⟩ := List.mem_map.mp hmem
    cases hx
  · intro _
    show tx.staging.changes ++ [.create s.made] = _
    rw [hchanges', if_neg (by rw [hstage]; decide), List.append_nil]
  · intro hnot
    rw [show tx.starts = false from hnot] at hstarts
    cases hstarts
  · rw [hchanges', new_creates]
    intro r hr
    rcases List.mem_append.mp hr with hr | hr
    · rw [hrun r (hstarted r hr).1]
      exact h.unsettled r (by rwa [hchanges, new_creates])
    · cases List.mem_singleton.mp hr
      rw [hnew]
      rfl
  · intro f hf
    obtain ⟨hlt, hnot⟩ := h.finishing f hf
    refine ⟨Nat.lt_succ_of_lt hlt, fun hmem => ?_⟩
    rcases List.mem_append.mp hmem with hmem | hmem
    · exact hnot hmem
    · rw [List.mem_singleton.mp hmem] at hlt
      exact absurd hlt (lt_irrefl _)

/-- **A start is staged**: its run is made, and the books do not know it before the commit. -/
theorem Inv.start (h : s.Inv s.owed) (args : J) (key : Option String) :
    (s.start args key).Inv (s.start args key).owed := by
  unfold State.start
  cases hholder : s.holder with
  | none => exact h
  | some tx =>
    dsimp only
    split
    swap
    · exact h
    next hopen =>
    obtain ⟨hstage, hstarts, hlive⟩ := hopen
    split
    · exact h
    next hfree =>
    rw [Bool.or_eq_true, not_or, Bool.not_eq_true, Bool.not_eq_true] at hfree
    have hnotAdopted : tx.stage ≠ .adopted := by rw [hstage]; decide
    have hended : s.isEnded = false := by
      by_contra hyes
      exact h.shut (by simpa using hyes) tx hholder hstage
    have hkept := h.books hended
    have htx := h.holder hended tx hholder hnotAdopted
    have hknown (k : String) (hk : key = some k) : s.known tx.staging k = none ∨
        s.known tx.staging k = tx.staging.finishing := by
      have hnot := hfree.1
      rw [hk] at hnot
      simp only [Option.any_some, Bool.and_eq_false_iff, Option.isSome_eq_false_iff, Option.isNone_iff_eq_none,
        bne_eq_false_iff_eq] at hnot
      exact hnot
    have hsound := htx.stageRun args hkept.made hstage hstarts hlive hknown
    have hholder' : (s.stageRun tx args key).holder = some
        { tx with
          staging :=
            { tx.staging with
              started := tx.staging.started ++ [s.made]
              changes := tx.staging.changes ++ [.create s.made] } } := rfl
    rw [owed_of_stage hholder hnotAdopted] at h
    rw [owed_of_stage hholder' hnotAdopted]
    have hrun (r : Nat) (hr : r < s.made) : (s.stageRun tx args key).run r = s.run r :=
      Function.update_of_ne (by omega) _ _
    have hnew : (s.stageRun tx args key).run s.made = s.newRun args key :=
      Function.update_self _ _ _
    have hrun' (r : Nat) (hr : r ≠ s.made) : (s.stageRun tx args key).run r = s.run r :=
      Function.update_of_ne hr _ _
    have hchanges : createds (tx.staging.changes ++ [.create s.made]) =
        createds tx.staging.changes ++ [s.made] := List.filterMap_append
    have hcreatedNow : (s.stageRun tx args key).created = (createds tx.staging.changes ++ [s.made]) ++
        s.cuts.flatMap fun staging => createds staging.changes := by
      rw [created_of_some hholder', createdIn, if_neg fun hadopted => hnotAdopted hadopted.1, ← hchanges]
      rfl
    have hcreated (r : Nat) (hr : r ∈ s.created) : r ∈ (s.stageRun tx args key).created := by
      rw [created_of_some hholder, createdIn_of_stage hnotAdopted] at hr
      rw [hcreatedNow]
      rcases List.mem_append.mp hr with hr | hr
      · exact List.mem_append_left _ (List.mem_append_left _ hr)
      · exact List.mem_append_right _ hr
    refine
      { h with
        kept := ?_
        once := ?_
        unsettled := ?_
        settled := ?_
        gone := fun _ r hr => absurd hr List.not_mem_nil
        fate := ?_
        holder := ?_
        within := ?_
        shut := ?_
        cuts := ?_
        staged := ?_
        unloaded := ?_ }
    · exact fun _ => kept_made hkept (Nat.le_succ _) rfl rfl rfl rfl rfl hrun
    · intro r
      by_cases hr : r = s.made
      · rw [hr, hnew]
        exact .new
      · rw [hrun' r hr]
        exact h.once r
    · intro _ r hr
      rw [hrun r (hkept.made r hr)]
      exact h.unsettled hended r hr
    · intro hyes
      rw [show s.isEnded = true from hyes] at hended
      cases hended
    · intro r hr
      by_cases hmade : r = s.made
      · refine .inr (.inl ?_)
        rw [hcreatedNow, hmade]
        exact List.mem_append_left _ (List.mem_append_right _ (List.mem_singleton_self _))
      · rw [hrun' r hmade] at hr ⊢
        exact (h.fate r hr).imp id (.imp (hcreated r) id)
    · rintro - tx' htx' -
      cases htx'
      exact hsound
    · rintro tx' htx' - - c hc
      cases htx'
      -- the start was let through by this comparison, before it counted
      have hbusy := hfree.2
      rw [show s.definition.concurrency = some c from hc] at hbusy
      simp only [Option.any_some, decide_eq_false_iff_not, ge_iff_le] at hbusy
      unfold activeIn at hbusy
      show s.active + ((tx.staging.started ++ [s.made]).length : Nat) -
        (if tx.staging.finishing.isNone then 0 else 1) ≤ c
      rw [List.length_append, List.length_singleton]
      push_cast
      omega
    · exact fun hyes => absurd (hyes.symm.trans hended) (by decide)
    · intro r hr
      obtain ⟨hlt, hnot, hnew'⟩ := h.cuts r hr
      refine ⟨Nat.lt_succ_of_lt hlt, hnot, fun tx' htx' => ?_⟩
      cases htx'
      show r ∉ (tx.staging.changes ++ [Adopted.create s.made]).filterMap Adopted.new
      rw [List.filterMap_append, List.mem_append, not_or]
      exact ⟨hnew' tx hholder, fun hmem => by
        cases List.mem_singleton.mp hmem
        exact lt_irrefl _ hlt⟩
    · rintro tx' htx' hloads
      cases htx'
      exact h.staged tx hholder hloads
    · intro hnot
      rw [show s.live = false from hnot] at hlive
      cases hlive

/-! ## The load -/

/-- Making the stored runs touches no other run and none of the books. -/
theorem make_spec (d : JobDefinition J) (ρ : Records J) (records : List (StoredRun J)) :
    (make d ρ records).made = ρ.made + records.length ∧
      (∀ r, r < ρ.made ∨ ρ.made + records.length ≤ r → (make d ρ records).run r = ρ.run r) ∧
      (make d ρ records).runs = ρ.runs ∧ (make d ρ records).keys = ρ.keys ∧
      (make d ρ records).active = ρ.active ∧ (make d ρ records).counted = ρ.counted ∧
      (make d ρ records).running = ρ.running ∧ (make d ρ records).tags = ρ.tags := by
  induction records generalizing ρ with
  | nil => exact ⟨rfl, fun _ _ => rfl, rfl, rfl, rfl, rfl, rfl, rfl⟩
  | cons stored rest ih =>
    obtain ⟨hmade, hrun, hrest⟩ := ih
      { ρ with run := Function.update ρ.run ρ.made (restored d stored), made := ρ.made + 1 }
    refine ⟨?_, fun r hr => ?_, hrest⟩
    · rw [make, hmade, List.length_cons]
      show ρ.made + 1 + rest.length = ρ.made + (rest.length + 1)
      omega
    · rw [List.length_cons] at hr
      have hne : r ≠ ρ.made := by omega
      rw [make, hrun r (show r < ρ.made + 1 ∨ ρ.made + 1 + rest.length ≤ r by omega)]
      exact Function.update_of_ne hne _ _

/-- A run that is made has the key it was stored with, and nobody waits for it. -/
theorem make_new (d : JobDefinition J) (ρ : Records J) (records : List (StoredRun J)) :
    ((List.range' ρ.made records.length).filterMap fun r => ((make d ρ records).run r).key) =
        records.filterMap (·.key) ∧
      ∀ r, ρ.made ≤ r → r < ρ.made + records.length → ((make d ρ records).run r).waiters = {} ∧
        ((make d ρ records).run r).started = false := by
  induction records generalizing ρ with
  | nil => exact ⟨rfl, fun r hle hlt => absurd hlt (by simp; omega)⟩
  | cons stored rest ih =>
    set ρ' : Records J :=
      { ρ with run := Function.update ρ.run ρ.made (restored d stored), made := ρ.made + 1 } with hρ'
    obtain ⟨hkeys, hnew⟩ := ih ρ'
    have hfirst : (make d ρ (stored :: rest)).run ρ.made = restored d stored := by
      rw [make, ← hρ', (make_spec d ρ' rest).2.1 ρ.made (.inl (Nat.lt_succ_self _))]
      exact Function.update_self _ _ _
    have hrestored : (restored d stored).key = stored.key ∧ (restored d stored).waiters = {} ∧
        (restored d stored).started = false := by
      unfold restored
      dsimp only
      split
      · exact ⟨rfl, rfl, rfl⟩
      · split <;> exact ⟨rfl, rfl, rfl⟩
    constructor
    · rw [List.length_cons, List.range'_succ]
      have htail : ((List.range' (ρ.made + 1) rest.length).filterMap fun r =>
          ((make d ρ (stored :: rest)).run r).key) = rest.filterMap (·.key) := hkeys
      rw [List.filterMap_cons, List.filterMap_cons, hfirst, hrestored.1, htail]
    · intro r hle hlt
      rcases Nat.eq_or_lt_of_le hle with rfl | hlt'
      · rw [hfirst]
        exact hrestored.2
      · refine hnew r hlt' ?_
        show r < ρ.made + 1 + rest.length
        rw [List.length_cons] at hlt
        omega

theorem activation_new (r : Nat) (run : JobRun J) :
    (activation r run).filterMap Adopted.new = [] ∧ (activation r run).filterMap Adopted.unblocked = [] ∧
      createds (activation r run) = [] := by
  unfold activation
  split
  · dsimp only
    split <;> exact ⟨rfl, rfl, rfl⟩
  all_goals exact ⟨rfl, rfl, rfl⟩

/-- **A load that takes the line** makes the stored runs and stages their activation. -/
theorem Inv.takeLoad (h : s.Inv s.owed) : s.takeLoad.Inv s.takeLoad.owed := by
  unfold State.takeLoad
  split
  · next stored hholder hload =>
    split
    · next hended =>
      rw [owed_of_none hholder] at h
      have hnone : ({ s with load := .idle } : State J).owed = [] := owed_of_none hholder
      rw [hnone]
      refine { h with holder := ?_, live := ?_, reading := nofun, staged := ?_, unloaded := ?_ }
      · exact fun hno => absurd hended (Bool.eq_false_iff.mp hno)
      · intro hlive hpersisted
        have hdone := h.live hlive hpersisted
        rw [hload] at hdone
        cases hdone
      · intro tx htx
        rw [show s.holder = some tx from htx] at hholder
        cases hholder
      · intro hlive _
        exact h.unloaded hlive (by rw [hload]; nofun)
    · next hended =>
      have hended' : s.isEnded = false := Bool.eq_false_iff.mpr hended
      -- the job is not live while it reads, so that its maps are still empty
      have hlive : s.live = false := by
        by_contra hyes
        have hdone := h.live (by simpa using hyes) (h.reading stored hload)
        rw [hload] at hdone
        cases hdone
      obtain ⟨hruns, hkeys⟩ : s.runs = [] ∧ ∀ key, s.keys key = none := by
        rcases h.unloaded hlive (by rw [hload]; nofun) with ⟨tx, htx, -⟩ | hempty
        · rw [hholder] at htx
          cases htx
        · exact hempty
      obtain ⟨hmade, hrun, hruns', hkeys', hactive, hcounted, hrunning, htags⟩ :=
        make_spec s.definition s.toRecords stored.records
      obtain ⟨hnewKeys, hnew⟩ := make_new s.definition s.toRecords stored.records
      -- the stored runs come after all that were made, and their activation is staged
      set made := make s.definition s.toRecords stored.records with hmake
      set runs := List.range' s.made stored.records.length with hrange
      set changes : List (Adopted J) :=
        runs.map .restore ++ runs.flatMap fun r => activation r (made.run r) with hchanges
      have hnone {β : Type} {f : Adopted J → Option β}
          (hf : ∀ r run, (activation r run).filterMap f = []) :
          (runs.flatMap fun r => activation r (made.run r)).filterMap f = [] := by
        rw [List.filterMap_flatMap]
        exact List.flatMap_eq_nil_iff.mpr fun r _ => hf r _
      have hnews : changes.filterMap Adopted.new = runs := by
        rw [hchanges, List.filterMap_append, hnone fun r run => (activation_new r run).1,
          List.append_nil, List.filterMap_map]
        exact List.filterMap_some
      have hunblocked : changes.filterMap Adopted.unblocked = [] := by
        rw [hchanges, List.filterMap_append, hnone fun r run => (activation_new r run).2.1,
          List.append_nil, List.filterMap_map]
        exact List.filterMap_eq_nil_iff.mpr fun _ _ => rfl
      have hcreateds : createds changes = [] := by
        rw [createds, hchanges, List.filterMap_append, hnone fun r run => (activation_new r run).2.2,
          List.append_nil, List.filterMap_map]
        exact List.filterMap_eq_nil_iff.mpr fun _ _ => rfl
      have hin (r : Nat) (hr : r ∈ runs) : s.made ≤ r ∧ r < s.made + stored.records.length :=
        List.mem_range'_1.mp hr
      have hnotUnblock (r : Nat) (phase : Phase) : .unblock r phase ∉ changes := fun hmem => by
        have : r ∈ changes.filterMap Adopted.unblocked := List.mem_filterMap.mpr ⟨_, hmem, rfl⟩
        rw [hunblocked] at this
        cases this
      set tx : Transaction J := { staging := { changes }, loads := true, after := runs } with htx
      set t : State J := { s with toRecords := made, load := .staged, holder := some tx } with ht
      have hstage : tx.stage ≠ .adopted := nofun
      have hholder' : t.holder = some tx := rfl
      rw [owed_of_none hholder] at h
      show t.Inv t.owed
      rw [owed_of_stage hholder' hstage]
      have hcreated : t.created = s.created := by
        rw [created_of_some hholder', created_of_none hholder, createdIn_of_stage hstage]
        show createds changes ++ _ = _
        rw [hcreateds]
        rfl
      have hwaiters (r : Nat) : ((made.run r).waiters = (s.run r).waiters ∧
          (made.run r).started = (s.run r).started) ∨
          ((made.run r).waiters = {} ∧ (made.run r).started = false) := by
        by_cases hout : r < s.made ∨ s.made + stored.records.length ≤ r
        · rw [hrun r hout]
          exact .inl ⟨rfl, rfl⟩
        · exact .inr (hnew r (by omega) (by omega))
      refine ⟨?_, ?_, ?_, h.dropped, ?_, ?_, ?_, ?_, ?_, ?_, ?_, ?_, ?_, ?_, nofun, ?_, ?_⟩
      · exact fun _ => kept_made (h.books hended') (hmade ▸ Nat.le_add_right _ _) hruns' hkeys' hactive
          hrunning htags fun r hr => hrun r (.inl hr)
      · intro _
        show made.counted = made.active + _
        rw [hcounted, hactive]
        exact h.counted hended'
      · exact fun hyes => absurd hyes hended
      · intro r
        show (made.run r).waiters.Once
        rcases hwaiters r with ⟨hsame, -⟩ | ⟨hnone, -⟩
        · rw [hsame]
          exact h.once r
        · rw [hnone]
          exact .new
      · intro _ r hr
        rw [show t.runs = [] from hruns'.trans hruns] at hr
        cases hr
      · exact fun hyes => absurd hyes hended
      · exact fun _ r hr => absurd hr List.not_mem_nil
      · intro r hr
        show (s.isEnded = false ∧ (r ∈ made.runs ∨ r ∈ [].filterMap Adopted.gone)) ∨ r ∈ t.created ∨
          ((made.run r).started = false ∧ (made.run r).waiters.waiting = [])
        have hr' : (made.run r).waiters.settled = none := hr
        rw [hcreated, hruns']
        rcases hwaiters r with ⟨hsame, hstarted⟩ | ⟨hnone, hstarted⟩
        · rw [hsame] at hr' ⊢
          rw [hstarted]
          exact h.fate r hr'
        · rw [hnone, hstarted]
          exact .inr (.inr ⟨rfl, rfl⟩)
      · rintro - tx' htx' -
        cases htx'
        refine ⟨⟨?_, ?_, ?_, ?_, ?_, ?_, ?_⟩, nofun, ?_, fun _ => rfl, ?_, fun hne => absurd rfl hne, nofun⟩
        · show (changes.filterMap Adopted.new).Nodup
          rw [hnews]
          exact List.nodup_range'
        · show ∀ r ∈ changes.filterMap Adopted.new, r < made.made ∧ r ∉ made.runs
          rw [hnews, hmade, hruns', hruns]
          exact fun r hr => ⟨(hin r hr).2, List.not_mem_nil⟩
        · show ((changes.filterMap Adopted.new).filterMap fun r => (made.run r).key).Nodup
          rw [hnews, hnewKeys]
          exact stored.keys
        · intro r _ key _
          exact .inl ((congrFun hkeys' key).trans (hkeys key))
        · show (changes.filterMap Adopted.unblocked).Nodup
          rw [hunblocked]
          exact List.nodup_nil
        · exact fun r phase hmem => absurd hmem (hnotUnblock r phase)
        · exact fun ⟨r, phase, hmem⟩ => absurd hmem (hnotUnblock r phase)
        · exact fun _ => ⟨rfl, rfl, nofun⟩
        · show ∀ r ∈ changes.filterMap Adopted.new, (made.run r).waiters.settled = none
          rw [hnews]
          intro r hr
          rw [(hnew r (hin r hr).1 (hin r hr).2).1]
      · rintro tx' htx' - hne
        cases htx'
        exact absurd rfl hne
      · exact fun hyes => absurd hyes hended
      · intro r hr
        obtain ⟨hlt, -, -⟩ := h.cuts r hr
        show r < made.made ∧ r ∉ made.runs ∧ _
        rw [hmade, hruns', hruns]
        refine ⟨Nat.lt_add_right _ hlt, List.not_mem_nil, fun tx' htx' => ?_⟩
        cases htx'
        show r ∉ changes.filterMap Adopted.new
        rw [hnews]
        exact fun hmem => absurd (hin r hmem).1 (by omega)
      · intro hyes
        rw [show s.live = true from hyes] at hlive
        cases hlive
      · exact fun _ _ _ => rfl
      · intro _ _
        exact .inr ⟨hruns'.trans hruns, fun key => (congrFun hkeys' key).trans (hkeys key)⟩
  · exact h

end ThreeXhaust.Chord.Jobs.State
