import ThreeXhaust.Tui.Transitions

/-!
# Lease fencing of TUI requests

Any number of processes call `TuiOperationStore` in any order and with any clock. The safety
of that rests on an invariant of the reachable databases, `Consistent`, and on what every
later database still knows about a row, `Later`.

* **`Change.kept`**, **`Claimed.taken`** — the step, one case for each kind of change.
-/

namespace ThreeXhaust.Tui

/-! ## One row -/

structure Kept (row row' : TuiRequestRow) : Prop where
  path : row'.canonicalPath = row.canonicalPath
  epoch : row'.leaseEpoch = row.leaseEpoch
  running : row'.status = .running → row.status = .running
  effect : row.effectId ≠ none → row'.effectId ≠ none
  queued : row'.effectId ≠ none → row'.status = .queued →
    row.effectId ≠ none ∧ row.status = .queued
  finished : row.status = .completed ∨ row.status = .failed → row'.status = row.status

theorem Kept.refl (row : TuiRequestRow) : Kept row row :=
  ⟨rfl, rfl, id, id, fun he hq => ⟨he, hq⟩, fun _ => rfl⟩

variable {row row' : TuiRequestRow}

theorem Kept.of_running (hrunning : row.status = .running)
    (path : row'.canonicalPath = row.canonicalPath) (epoch : row'.leaseEpoch = row.leaseEpoch)
    (effect : row.effectId ≠ none → row'.effectId ≠ none)
    (queued : row'.status = .queued → row'.effectId = none) : Kept row row' := by
  refine ⟨path, epoch, fun _ => hrunning, effect, fun he hq => absurd (queued hq) he, ?_⟩
  rw [hrunning]
  rintro (h | h)
  · cases h
  · cases h

theorem FinishedState.status_ne_queued (state : FinishedState) : state.status ≠ .queued := by
  cases state <;> decide

variable {db : Database}

theorem Change.kept {call : TuiCall} {es : List ExecutionEventRow} (h : Change db call row row' es)
    : Kept row row' := by
  cases h with
  | stay => exact .refl row
  | renew expiry now running =>
    exact .of_running running rfl rfl id fun hq => absurd (running.symm.trans hq) (by decide)
  | effect effectId now running =>
    exact .of_running running rfl rfl (fun _ => by simp)
      fun hq => absurd (running.symm.trans hq) (by decide)
  | record now issued parsed running child graph applied safe =>
    exact .of_running running rfl rfl id fun hq => absurd (running.symm.trans hq) (by decide)
  | close state outcome now closing =>
    exact .of_running closing.running rfl rfl id fun hq => absurd hq state.status_ne_queued
  | requeue now running unaffected =>
    exact .of_running running rfl rfl (fun he => absurd unaffected he) fun _ => unaffected
  | «recall» now issued queued newest =>
    refine ⟨rfl, rfl, ?_, id, ?_, ?_⟩
    · intro hr
      cases hr
    · intro _ hq
      cases hq
    · rw [queued]
      rintro (h | h)
      · cases h
      · cases h

structure Taken (row row' : TuiRequestRow) : Prop where
  path : row'.canonicalPath = row.canonicalPath
  queued : row.status = .queued
  running : row'.status = .running
  epoch : row'.leaseEpoch = row.leaseEpoch + 1
  effect : row'.effectId = row.effectId

theorem Claimed.taken {es : List ExecutionEventRow} (h : Claimed row row' es) : Taken row row' := by
  cases h with
  | reopened owner expiry now queued started => exact ⟨rfl, queued, rfl, rfl, rfl⟩
  | opened owner expiry now queued sequence applied => exact ⟨rfl, queued, rfl, rfl, rfl⟩

/-! ## The invariant -/

/-- Request ids are unique, no queued row has an effect, a project has one running row. -/
structure Consistent (db : Database) : Prop where
  ids : db.ids.Nodup
  effects : ∀ id row, db.row? id = some row → row.effectId ≠ none → row.status ≠ .queued
  single : ∀ j k a b, db.row? j = some a → db.row? k = some b →
    a.canonicalPath = b.canonicalPath → a.status = .running → b.status = .running → j = k

variable {db' : Database}

theorem Consistent.changes {R : TuiRequestRow → TuiRequestRow → List ExecutionEventRow → Prop}
    (hc : Consistent db) (h : db.Changes db' R) (hR : ∀ r r' es, R r r' es → Kept r r')
    : Consistent db' := by
  refine ⟨by rw [h.ids]; exact hc.ids, ?_, ?_⟩
  · intro id row' hrow' he hq
    obtain ⟨row, es, hrow, -, hmove⟩ := h.back hrow'
    obtain ⟨he, hq⟩ := (hR _ _ _ hmove).queued he hq
    exact hc.effects id row hrow he hq
  · intro j k a' b' ha' hb' hpath hra hrb
    obtain ⟨a, _, ha, -, hma⟩ := h.back ha'
    obtain ⟨b, _, hb, -, hmb⟩ := h.back hb'
    have hka := hR _ _ _ hma
    have hkb := hR _ _ _ hmb
    rw [hka.path, hkb.path] at hpath
    exact hc.single j k a b ha hb hpath (hka.running hra) (hkb.running hrb)

theorem not_running_of_recovered {db1 : Database} (hn : db.ids.Nodup) {projectPath now : String}
    (h : db.recoverExpired projectPath now = .ok db1)
    (hfree : ∀ r ∈ db1.queue, r.canonicalPath = projectPath → r.status = .running →
      r.leaseAfter now = false) {id : String} (hrow : db1.row? id = some row)
    (hpath : row.canonicalPath = projectPath) : row.status ≠ .running := by
  intro hrunning
  have hexpired : row.leaseExpired now = true := by
    have := hfree row (Database.mem_of_row? hrow) hpath hrunning
    simpa [TuiRequestRow.leaseAfter_eq] using this
  obtain ⟨row0, es, -, -, hmove⟩ := (Database.recoverExpired_ok hn h).back hrow
  by_cases hint : row0.interrupted projectPath now = true
  · rw [if_pos hint] at hmove
    cases hmove with
    | failed closing => cases hrunning
    | requeued running unaffected => cases hrunning
  · rw [if_neg hint] at hmove
    obtain ⟨rfl, -⟩ := hmove
    exact hint (by simp [TuiRequestRow.interrupted, hpath, hrunning, hexpired])

theorem Consistent.claimed {db1 db' : Database} {row row' : TuiRequestRow}
    {es : List ExecutionEventRow} (hc : Consistent db1)
    (hfree : ∀ k r, db1.row? k = some r → r.canonicalPath = row.canonicalPath →
      r.status ≠ .running)
    (hw : db1.Writes db' row.requestId row row' es) (ht : Taken row row') : Consistent db' := by
  have hlookup (k : String) : db'.row? k = if k = row.requestId then some row' else db1.row? k := by
    by_cases hk : k = row.requestId
    · rw [if_pos hk, hk, hw.after]
    · rw [if_neg hk, hw.others k hk]
  -- a running row of the project is the claimed one
  have hmine {k : String} {r : TuiRequestRow} (hr : db'.row? k = some r)
      (hpath : r.canonicalPath = row.canonicalPath) (hrunning : r.status = .running) :
      k = row.requestId := by
    by_contra hk
    rw [hlookup, if_neg hk] at hr
    exact hfree k r hr hpath hrunning
  refine ⟨by rw [hw.ids]; exact hc.ids, ?_, ?_⟩
  · intro k r hr he
    rw [hlookup] at hr
    by_cases hk : k = row.requestId
    · rw [if_pos hk] at hr
      cases hr
      rw [ht.running]
      decide
    · rw [if_neg hk] at hr
      exact hc.effects k r hr he
  · intro j k a b ha hb hpath hra hrb
    by_cases hpa : a.canonicalPath = row.canonicalPath
    · rw [hmine ha hpa hra, hmine hb (hpath ▸ hpa) hrb]
    · have hj : j ≠ row.requestId := by
        rintro rfl
        rw [hw.after] at ha
        cases ha
        exact hpa ht.path
      have hk : k ≠ row.requestId := by
        rintro rfl
        rw [hw.after] at hb
        cases hb
        exact hpa (hpath.trans ht.path)
      rw [hlookup, if_neg hj] at ha
      rw [hlookup, if_neg hk] at hb
      exact hc.single j k a b ha hb hpath hra hrb

theorem Consistent.inserted (hc : Consistent db) (hfresh : row.requestId ∉ db.ids)
    (hqueued : row.status = .queued) (heffect : row.effectId = none)
    : Consistent ⟨db.queue ++ [row], db.events⟩ := by
  have hrunning {k : String} {r : TuiRequestRow}
      (hr : (Database.mk (db.queue ++ [row]) db.events).row? k = some r)
      (h : r.status = .running) : db.row? k = some r := by
    rw [Database.row?_insert hfresh] at hr
    by_cases hk : k = row.requestId
    · rw [if_pos hk] at hr
      cases hr
      rw [hqueued] at h
      cases h
    · rw [if_neg hk] at hr
      exact hr
  refine ⟨Table.nodup_insert hc.ids hfresh, ?_, ?_⟩
  · intro k r hr he
    rw [Database.row?_insert hfresh] at hr
    by_cases hk : k = row.requestId
    · rw [if_pos hk] at hr
      cases hr
      exact absurd heffect he
    · rw [if_neg hk] at hr
      exact hc.effects k r hr he
  · intro j k a b ha hb hpath hra hrb
    exact hc.single j k a b (hrunning ha hra) (hrunning hb hrb) hpath hra hrb

theorem Consistent.recovered {db1 : Database} (hc : Consistent db) {projectPath now : String}
    (h : db.recoverExpired projectPath now = .ok db1) : Consistent db1 :=
  hc.changes (Database.recoverExpired_changes hc.ids (.recoverInterrupted projectPath none) h)
    fun _ _ _ => Change.kept

/-- **The step.** Every call keeps the invariant. -/
theorem step_consistent (call : TuiCall) (hc : Consistent db) : Consistent (call.step db) := by
  have hmoves := step_moves hc.ids call
  generalize call.step db = db' at hmoves ⊢
  cases hmoves with
  | changed takes changes => exact hc.changes changes fun _ _ _ => Change.kept
  | inserted takes input position now fresh => exact hc.inserted fresh rfl rfl
  | claimed takes recovered path free writes claimed =>
    refine (hc.recovered recovered).claimed ?_ writes claimed.taken
    intro k r hr hpath
    exact not_running_of_recovered hc.ids recovered free hr (hpath.trans path)

/-- **The run.** Every reachable database satisfies the invariant. -/
theorem reachable_consistent (h : Reachable db) : Consistent db := by
  refine Run.Reachable.invariant Consistent ?_ (fun s i hs _ => step_consistent i hs) h
  refine ⟨List.nodup_nil, ?_, ?_⟩
  · intro id row hrow
    cases hrow
  · intro j k a b ha
    cases ha

/-! ## What is never taken back -/

structure Later (row row' : TuiRequestRow) : Prop where
  epoch : row.leaseEpoch ≤ row'.leaseEpoch
  effect : row.effectId ≠ none → row'.effectId ≠ none
  finished : row.status = .completed ∨ row.status = .failed → row'.status = row.status

theorem Later.refl (row : TuiRequestRow) : Later row row := ⟨le_rfl, id, fun _ => rfl⟩

theorem Later.trans {a b c : TuiRequestRow} (h1 : Later a b) (h2 : Later b c) : Later a c := by
  refine ⟨h1.epoch.trans h2.epoch, fun he => h2.effect (h1.effect he), ?_⟩
  intro hf
  have hb := h1.finished hf
  rw [← hb] at hf ⊢
  exact h2.finished hf

theorem Kept.later (h : Kept row row') : Later row row' :=
  ⟨h.epoch.ge, h.effect, h.finished⟩

theorem Taken.later (h : Taken row row') : Later row row' := by
  refine ⟨by rw [h.epoch]; omega, by rw [h.effect]; exact id, ?_⟩
  rw [h.queued]
  rintro (hf | hf)
  · cases hf
  · cases hf

def Database.LaterThan (db' db : Database) : Prop :=
  ∀ id row, db.row? id = some row → ∃ row', db'.row? id = some row' ∧ Later row row'

/-- **The step**: how a call moves the epoch and the facts of a row. -/
theorem step_later (hc : Consistent db) (call : TuiCall) {id : String}
    (hrow : db.row? id = some row) :
    ∃ row', (call.step db).row? id = some row' ∧ Later row row'
      ∧ row'.leaseEpoch
        = if call.takes db = some id then row.leaseEpoch + 1 else row.leaseEpoch := by
  have hmoves := step_moves hc.ids call
  generalize call.step db = db' at hmoves ⊢
  cases hmoves with
  | changed takes changes =>
    obtain ⟨row', es, hrow', -, hchange⟩ := changes.rows id row hrow
    exact ⟨row', hrow', hchange.kept.later, by simpa [takes] using hchange.kept.epoch⟩
  | inserted takes input position now fresh =>
    have hne : id ≠ (newRow input position now).requestId := by
      rintro rfl
      exact fresh (Database.row?_isSome_iff.mp (Option.isSome_iff_exists.mpr ⟨row, hrow⟩))
    refine ⟨row, ?_, .refl row, by simp [takes]⟩
    rw [Database.row?_insert fresh, if_neg hne, hrow]
  | claimed takes recovered path free writes claimed =>
    obtain ⟨row1, es, hrow1, -, hchange⟩ :=
      (Database.recoverExpired_changes hc.ids call recovered).rows id row hrow
    have hepoch := hchange.kept.epoch
    rename_i claimedRow claimedRow' _
    by_cases hid : id = claimedRow.requestId
    · subst hid
      obtain rfl : row1 = claimedRow := Option.some.inj (hrow1.symm.trans writes.before)
      refine ⟨_, writes.after, hchange.kept.later.trans claimed.taken.later, ?_⟩
      rw [if_pos takes, claimed.taken.epoch, hepoch]
    · refine ⟨row1, by rw [writes.others id hid, hrow1], hchange.kept.later, ?_⟩
      rw [takes, if_neg (fun he => hid (Option.some.inj he).symm), hepoch]

/-- The databases reached from `db` by any further calls. -/
abbrev ReachableFrom (db : Database) : Database → Prop :=
  Run.Reachable TuiCall.step Run.always db

/-- **The run**: rows are never deleted and never move back. -/
theorem later_of_reachable (hc : Consistent db) (h : ReachableFrom db db') :
    Consistent db' ∧ db'.LaterThan db := by
  refine ⟨h.invariant Consistent hc fun s i hs _ => step_consistent i hs, ?_⟩
  refine h.relation Consistent (fun a b => b.LaterThan a) ?_ ?_
    (fun s i hs _ => step_consistent i hs) ?_ hc
  · intro s id row hrow
    exact ⟨row, hrow, .refl row⟩
  · intro a b c hab hbc id row hrow
    obtain ⟨row1, hrow1, h1⟩ := hab id row hrow
    obtain ⟨row2, hrow2, h2⟩ := hbc id row1 hrow1
    exact ⟨row2, hrow2, h1.trans h2⟩
  · intro s i hs _ id row hrow
    obtain ⟨row', hrow', hlater, -⟩ := step_later hs i hrow
    exact ⟨row', hrow', hlater⟩

/-! ## The parts of the main theorem -/

theorem Consistent.one_running (hc : Consistent db) (projectPath : String) :
    db.queue.countP (fun r => r.canonicalPath = projectPath && r.status = .running) ≤ 1 := by
  apply Table.countP_le_one hc.ids
  intro a ha b hb hpa hpb
  simp only [Bool.and_eq_true, decide_eq_true_eq] at hpa hpb
  exact hc.single _ _ a b (Database.row?_of_mem hc.ids ha) (Database.row?_of_mem hc.ids hb)
    (hpa.1.trans hpb.1.symm) hpa.2 hpb.2

theorem changed_row_held (hc : Consistent db) {call : TuiCall} {id k : String}
    {lease : TuiRequestLease} {time : Option Int} (hf : call.fence = some (id, lease, time))
    (hrow : db.row? k = some row) (hrow' : (call.step db).row? k = some row') (hne : row' ≠ row) :
    k = id ∧ row.status = .running ∧ row.ownerId = some lease.ownerId
      ∧ row.leaseEpoch = lease.leaseEpoch
      ∧ ∃ now, isoTimestamp time = .ok now ∧ row.leaseAfter now = true := by
  rcases step_fenced hc.ids hf with hstay | ⟨now, held, after, es, hnow, hheld, hafter, hw, -⟩
  · rw [hstay, hrow] at hrow'
    exact absurd (Option.some.inj hrow').symm hne
  · by_cases hk : k = id
    · subst hk
      obtain rfl : held = row := Option.some.inj (hw.before.symm.trans hrow)
      obtain ⟨-, hrunning, howner, hepoch⟩ := TuiRequestRow.heldBy_iff.mp hheld
      exact ⟨rfl, hrunning, howner, hepoch, now, hnow, hafter⟩
    · rw [hw.others k hk, hrow] at hrow'
      exact absurd (Option.some.inj hrow').symm hne

theorem stale_lease_stays (hc : Consistent db) (h : ReachableFrom db db') {call : TuiCall}
    {id : String} {lease : TuiRequestLease} {time : Option Int}
    (hf : call.fence = some (id, lease, time)) (hrow : db.row? id = some row)
    (hepoch : lease.leaseEpoch < row.leaseEpoch) : call.step db' = db' := by
  obtain ⟨hc', hlater⟩ := later_of_reachable hc h
  obtain ⟨row', hrow', hl⟩ := hlater id row hrow
  rcases step_fenced hc'.ids hf with hstay | ⟨now, held, after, es, -, hheld, -, hw, -⟩
  · exact hstay
  · obtain rfl : held = row' := Option.some.inj (hw.before.symm.trans hrow')
    obtain ⟨-, -, -, hsame⟩ := TuiRequestRow.heldBy_iff.mp hheld
    have := hl.epoch
    omega

theorem takes_unaffected (hc : Consistent db) {call : TuiCall} {id : String}
    (hrow : db.row? id = some row) (heffect : row.effectId ≠ none) : call.takes db ≠ some id := by
  intro htakes
  have hmoves := step_moves hc.ids call
  generalize call.step db = db' at hmoves
  cases hmoves with
  | changed takes changes => simp [takes] at htakes
  | inserted takes input position now fresh => simp [takes] at htakes
  | claimed takes recovered path free writes claimed =>
    rename_i claimedRow claimedRow' _
    obtain rfl : claimedRow.requestId = id := Option.some.inj (takes.symm.trans htakes)
    obtain ⟨row1, es, hrow1, -, hchange⟩ :=
      (Database.recoverExpired_changes hc.ids call recovered).rows _ row hrow
    obtain rfl : row1 = claimedRow := Option.some.inj (hrow1.symm.trans writes.before)
    exact (hc.recovered recovered).effects _ _ hrow1 (hchange.kept.effect heffect)
      claimed.taken.queued

/-- **Requests are fenced.** In every database any interleaving of calls reaches, with any
clocks: a project has at most one running row; a call moves a row's epoch by one when it
claims the row and not otherwise; a call that carries a lease changes a row only while the row
runs under exactly that lease, and an older epoch stays without effect for good; a row with an
effect is never queued or claimed again; a finished row keeps its status. -/
theorem requests_are_fenced {db : Database} (h : Reachable db) :
    (∀ projectPath, db.queue.countP
        (fun r => r.canonicalPath = projectPath && r.status = .running) ≤ 1)
    ∧ (∀ (call : TuiCall) id row, db.row? id = some row →
        ∃ row', (call.step db).row? id = some row' ∧ row'.leaseEpoch
          = if call.takes db = some id then row.leaseEpoch + 1 else row.leaseEpoch)
    ∧ (∀ (call : TuiCall) id lease time, call.fence = some (id, lease, time) →
        (∀ k row row', db.row? k = some row → (call.step db).row? k = some row' → row' ≠ row →
          k = id ∧ row.status = .running ∧ row.ownerId = some lease.ownerId
            ∧ row.leaseEpoch = lease.leaseEpoch
            ∧ ∃ now, isoTimestamp time = .ok now ∧ row.leaseAfter now = true)
        ∧ ∀ row, db.row? id = some row → lease.leaseEpoch < row.leaseEpoch →
          ∀ db', ReachableFrom db db' → call.step db' = db')
    ∧ (∀ id row, db.row? id = some row → row.effectId ≠ none →
        ∀ db', ReachableFrom db db' → ∃ row', db'.row? id = some row' ∧ row'.status ≠ .queued
          ∧ ∀ call : TuiCall, call.takes db' ≠ some id)
    ∧ (∀ id row, db.row? id = some row → row.status = .completed ∨ row.status = .failed →
        ∀ db', ReachableFrom db db' →
          ∃ row', db'.row? id = some row' ∧ row'.status = row.status) := by
  have hc := reachable_consistent h
  refine ⟨hc.one_running, ?_, ?_, ?_, ?_⟩
  · intro call id row hrow
    obtain ⟨row', hrow', -, hepoch⟩ := step_later hc call hrow
    exact ⟨row', hrow', hepoch⟩
  · intro call id lease time hf
    refine ⟨fun k row row' hrow hrow' hne => changed_row_held hc hf hrow hrow' hne, ?_⟩
    intro row hrow hepoch db' hdb'
    exact stale_lease_stays hc hdb' hf hrow hepoch
  · intro id row hrow heffect db' hdb'
    obtain ⟨hc', hlater⟩ := later_of_reachable hc hdb'
    obtain ⟨row', hrow', hl⟩ := hlater id row hrow
    have heffect' := hl.effect heffect
    exact ⟨row', hrow', hc'.effects id row' hrow' heffect',
      fun call => takes_unaffected hc' hrow' heffect'⟩
  · intro id row hrow hfinished db' hdb'
    obtain ⟨-, hlater⟩ := later_of_reachable hc hdb'
    obtain ⟨row', hrow', hl⟩ := hlater id row hrow
    exact ⟨row', hrow', hl.finished hfinished⟩

def enqueueSample : TuiCall :=
  .enqueue ⟨"r", "/p", "f", "", [], none, none⟩ (some 0)

def claimSample : TuiCall := .claim "/p" (some ⟨"owner", none, some 1000⟩) (some 0)

def claimedSample : Database := claimSample.step (enqueueSample.step .empty)

def competingSample : Database :=
  claimSample.step ((TuiCall.enqueue ⟨"s", "/p", "g", "", [], none, none⟩ (some 0)).step claimedSample)

/-- A second request of the project is not claimed while the first one is running. -/
theorem requests_are_fenced_claimed :
    competingSample.queue.map (fun row => (row.requestId, row.status, row.leaseEpoch))
        = [("r", .running, 1), ("s", .queued, 0)]
      ∧ competingSample.queue.countP
        (fun r => r.canonicalPath = "/p" && r.status = .running) ≤ 1 :=
  ⟨by decide +kernel,
    (requests_are_fenced (.step claimSample (.step _ (.step claimSample (.step enqueueSample .init
      trivial) trivial) trivial) trivial)).1 "/p"⟩

end ThreeXhaust.Tui
