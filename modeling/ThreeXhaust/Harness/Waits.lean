import ThreeXhaust.Harness.Candidates
import ThreeXhaust.Lib.Search

/-!
# What a wait is checked for

`#ownedLive`, `#waitCycle`, `#checkWait` and `#validateWait` of `durable/src/harness/scheduler.ts`.
A wait may not close a cycle in the wait-for graph: an edge leads from each waiting task to what it
waits on, unless it is abort-marked, and from each live task to its live ordinary owned work. The
check searches the graph of the commit's candidates. It walks no subtree twice, and still returns a
path exactly when the graph, as far as the index knows it, has one.

A walk down takes a turn for each node that it enters, so one more than there are links is enough.
-/

namespace ThreeXhaust.Harness

/-- What a task waits on: an abort-marked one waits only for its owned work. -/
def TaskRecord.waits (record : TaskRecord) : List TaskId :=
  match record.state with
  | .waiting on _ => if record.abortRequested then [] else on
  | _ => []

namespace Index

variable (s : Index)

/-- `#ownedLive`: the live ordinary owned work of `owner`, by a walk that enters the tasks that
`enter` lets in. -/
def ownedLive (overlay : Overlay) (enter : TaskId → Bool) (owner : TaskId) : List TaskId :=
  match s.walkDown overlay false enter ((s.below ++ s.links overlay).length + 1) (.task owner) with
  | none => []
  | some yields => (yields.filter fun y => y.live.isSome && !y.node.background).map (·.id)

/-! ## `#waitCycle` -/

/-- A turn of `#waitCycle` at `id`: the tasks it reaches from there. Below a walked task the walk
does not go again. -/
def waitNext (overlay : Overlay) (walked : List TaskId) (id : TaskId) : List TaskId × List TaskId :=
  match s.liveIn overlay id with
  | none => (walked, [])
  | some record =>
    if id ∈ walked then (walked, record.waits)
    else
      let found := s.ownedLive overlay (fun below => below ∉ id :: walked) id
      (found ++ id :: walked, record.waits ++ found)

/-- The tasks that a search from `on` can reach. -/
def waitScope (overlay : Overlay) (on : List TaskId) : List TaskId :=
  let records := overlay.tasks ++ s.live
  on ++ records.map (·.1) ++ records.flatMap (·.2.waits)

/-- `#waitCycle`: the path from a member of `on` back to `task`, if there is one. -/
def waitCycle (overlay : Overlay) (fuel : Nat) (task : TaskId) (on : List TaskId) :
    Option (Option (List TaskId)) :=
  Search.search (s.waitNext overlay) task fuel (Search.start [] on)

/-! ## `#checkWait` -/

/-- A member of `on`: a candidate, a live task, or what Storage was read for; `some none` for a task
that does not exist. -/
def waitMember (overlay : Overlay) (ended : List (TaskId × Option TaskRecord)) (id : TaskId) :
    Option (Option TaskRecord) :=
  match s.record overlay id with
  | some record => some (some record)
  | none => ended.lookup id

def waitTargets (overlay : Overlay) (ended : List (TaskId × Option TaskRecord))
    (current : TaskRecord) (policy : JoinPolicy) :
    List TaskId → Except String (List TaskId × List TaskId)
  | [] => .ok ([], [])
  | id :: on =>
    match s.waitMember overlay ended id with
    | none => do
      let (targets, missing) ← waitTargets overlay ended current policy on
      .ok (targets, id :: missing)
    | some none => .error s!"Task {id} does not exist"
    | some (some member) =>
      if policy = .failFast ∧ member.owner ≠ some current.id then
        .error (s!"Task {current.id} can wait failFast only on tasks it owns; "
          ++ s!"{id} is not one")
      else do
        let (targets, missing) ← waitTargets overlay ended current policy on
        -- a live child already holds the waiter, and a terminal task has no edges
        if member.state.isTerminal = false ∧ member.owner ≠ some current.id then
          .ok (id :: targets, missing)
        else .ok (targets, missing)

/-- What `#checkWait` returns. -/
inductive Checked where
  | ok
  | missing (ids : List TaskId)
  | error (message : String)

def cycleError (current : TaskId) (cycle : List TaskId) : String :=
  s!"Task {current} cannot wait on {cycle.headD current}: "
    ++ " -> ".intercalate ((current :: cycle).map fun id => s!"{id}") ++ " is a wait cycle"

def checkWait (overlay : Overlay) (ended : List (TaskId × Option TaskRecord)) (current : TaskRecord)
    (on : List TaskId) (policy : JoinPolicy) : Checked :=
  match s.waitTargets overlay ended current policy on with
  | .error message => .error message
  | .ok (targets, missing) =>
    if ¬missing.isEmpty then .missing missing
    else if targets.isEmpty then .ok
    else
      match s.waitCycle overlay ((s.waitScope overlay targets).length + 1) current.id targets with
      | some (some cycle) => .error (cycleError current.id cycle)
      | _ => .ok

/-- The loop of `#validateWait`, which reads from Storage what a check found missing. -/
def validateLoop (records : Records) (overlay : Overlay) (current : TaskRecord) (on : List TaskId)
    (policy : JoinPolicy) : Nat → List (TaskId × Option TaskRecord) → Except String Unit
  | 0, _ => .error "The loop of #validateWait goes on"
  | fuel + 1, ended =>
    match s.checkWait overlay ended current on policy with
    | .ok => .ok ()
    | .error message => .error message
    | .missing ids =>
      validateLoop records overlay current on policy fuel
        (ids.foldl (fun ended id => Assoc.set ended id (records.tasks.lookup id)) ended)

/-- `#validateWait` of an invocation that runs a phase, behind its loads. Each check that finds
something missing has it read, so there are no more of them than members. -/
def validateWait (records : Records) (overlay : Overlay) (current : TaskRecord) (on : List TaskId)
    (policy : JoinPolicy) : Except String Unit :=
  s.validateLoop records overlay current on policy (on.length + 2) []

end Index

/-! ## The search is exact -/

namespace Index

variable {s : Index} {r : Records} {overlay : Overlay} {id x y : TaskId} {on : List TaskId}

theorem enters_and (stop : TaskId → Bool) (n : Node) :
    (s.enters overlay false (fun _ => true) n && !(match n with
      | .task id => stop id
      | .conversation _ => false))
      = s.enters overlay false (fun id => !stop id) n := by
  cases n with
  | conversation c => rfl
  | task id =>
    simp only [enters]
    cases s.fields overlay id with
    | none => rfl
    | some node => simp

theorem Sound.mem_ownedLive (h : s.Sound r) (htree : r.IsTree) (hstages : overlay.Stages r)
    (enter : TaskId → Bool) :
    y ∈ s.ownedLive overlay enter x ↔
      (∃ record ∈ s.liveIn overlay y, record.background = false) ∧
        Forest.Climbs (s.upIn overlay) (s.enters overlay false enter) (.task y) (.task x) := by
  obtain ⟨yields, hwalk, _, hfields, hyields⟩ :=
    h.walkDown htree hstages false enter (.task x)
  rw [ownedLive, hwalk _ (Nat.lt_succ_self _)]
  simp only [List.mem_map, List.mem_filter, Bool.and_eq_true]
  constructor
  · rintro ⟨z, ⟨hz, hlive, hbackground⟩, rfl⟩
    obtain ⟨_, hclimbs⟩ := (hyields z.id).mp ⟨z, hz, rfl, hlive⟩
    obtain ⟨hnode, hz'⟩ := hfields z hz
    obtain ⟨record, hrecord⟩ := Option.isSome_iff_exists.mp hlive
    rw [hz'] at hrecord
    refine ⟨⟨record, hrecord, ?_⟩, hclimbs⟩
    rw [liveIn_fields hrecord, Option.some.injEq] at hnode
    rw [← hnode] at hbackground
    simpa using hbackground
  · rintro ⟨⟨record, hrecord, hbackground⟩, hclimbs⟩
    have hsome : (s.liveIn overlay y).isSome = true := by
      rw [Option.mem_def.mp hrecord]
      rfl
    obtain ⟨z, hz, rfl, hlive⟩ := (hyields y).mpr ⟨hsome, hclimbs⟩
    obtain ⟨hnode, _⟩ := hfields z hz
    rw [liveIn_fields hrecord, Option.some.injEq] at hnode
    exact ⟨z, ⟨hz, hlive, by rw [← hnode]; simpa using hbackground⟩, rfl⟩

/-- A walk that leaves out what is below some tasks finds what is owned, or it is owned by one of
these tasks. -/
theorem Sound.mem_ownedLive_or (h : s.Sound r) (htree : r.IsTree) (hstages : overlay.Stages r)
    (stop : TaskId → Bool) (hy : s.OwnsIn overlay x y) :
    y ∈ s.ownedLive overlay (fun id => !stop id) x ∨
      ∃ z, stop z = true ∧ z ≠ x ∧ s.OwnsIn overlay z y := by
  obtain ⟨hlive, hclimbs⟩ := hy
  rcases hclimbs.avoids (fun n => match n with
      | .task id => stop id
      | .conversation _ => false) with havoids | ⟨m, hm, _, hym, hmx⟩
  · left
    rw [h.mem_ownedLive htree hstages]
    exact ⟨hlive, havoids.mono (fun _ _ hp => hp) fun n hn => enters_and stop n ▸ hn⟩
  · right
    cases m with
    | conversation c => cases hm
    | task z =>
      refine ⟨z, hm, ?_, hlive, hym⟩
      -- the way up does not come back to where it was
      rintro rfl
      have hlt : ∀ {n m : Node}, Forest.Climbs (s.upIn overlay)
          (s.enters overlay false fun _ => true) n m → m.id < n.id := by
        intro n m hnm
        induction hnm with
        | base hup => exact h.upIn_lt hstages hup
        | step hup _ _ ih => exact Nat.lt_trans ih (h.upIn_lt hstages hup)
      exact Nat.lt_irrefl _ (hlt hmx)

/-- The wait-for graph of the candidates, as far as the index knows it. -/
def WaitsIn (s : Index) (overlay : Overlay) (x y : TaskId) : Prop :=
  ∃ record ∈ s.liveIn overlay x, y ∈ record.waits ∨ s.OwnsIn overlay x y

theorem record_mem {record : TaskRecord} (h : s.liveIn overlay id = some record) :
    (id, record) ∈ overlay.tasks ++ s.live := by
  rw [liveIn, Option.filter_eq_some_iff, Index.record] at h
  cases hoverlay : overlay.tasks.lookup id with
  | some new =>
    obtain rfl : new = record := by simpa [hoverlay] using h.1
    exact List.mem_append_left _ (Assoc.mem_of_lookup hoverlay)
  | none =>
    simp only [hoverlay] at h
    exact List.mem_append_right _ (Assoc.mem_of_lookup h.1)

theorem Sound.found_or_walked (h : s.Sound r) (htree : r.IsTree) (hstages : overlay.Stages r)
    {walked : List TaskId} {R : TaskId → Prop}
    (hpromise : ∀ w ∈ walked, ∀ y, s.OwnsIn overlay w y → R y) (hy : s.OwnsIn overlay x y) :
    R y ∨ y ∈ s.ownedLive overlay (fun below => below ∉ x :: walked) x := by
  rcases h.mem_ownedLive_or htree hstages (fun below => below ∈ x :: walked) hy with
    hfound | ⟨z, hz, hne, hzy⟩
  · right
    simpa using hfound
  · left
    have hmem : z ∈ walked := by simpa [hne] using hz
    exact hpromise z hmem y hzy

theorem OwnsIn.trans (hx : s.OwnsIn overlay x y) (hy : s.OwnsIn overlay y id) :
    s.OwnsIn overlay x id := by
  obtain ⟨⟨record, hrecord, hbackground⟩, hclimbs⟩ := hx
  refine ⟨hy.1, hy.2.trans ?_ hclimbs⟩
  simp [enters, liveIn_fields hrecord, hbackground]

theorem Sound.waitVisits (h : s.Sound r) (htree : r.IsTree) (hstages : overlay.Stages r)
    (on : List TaskId) :
    Search.Visits (s.WaitsIn overlay) (s.waitScope overlay on) (s.waitNext overlay)
      fun walked R => ∀ w ∈ walked, ∀ y, s.OwnsIn overlay w y → R y := by
  have howned : ∀ {x y : TaskId} {enter : TaskId → Bool}, y ∈ s.ownedLive overlay enter x →
      s.OwnsIn overlay x y := by
    intro x y enter hy
    rw [h.mem_ownedLive htree hstages] at hy
    refine ⟨hy.1, hy.2.mono (fun _ _ hp => hp) fun n hn => ?_⟩
    cases n with
    | conversation c => rfl
    | task id =>
      simp only [enters] at hn ⊢
      cases hfields : s.fields overlay id with
      | none => simp [hfields] at hn
      | some node =>
        simp only [hfields, Bool.and_eq_true] at hn ⊢
        exact ⟨hn.1, trivial⟩
  have hnext : ∀ walked x y, y ∈ (s.waitNext overlay walked x).2 → s.WaitsIn overlay x y := by
    intro walked x y hy
    rw [waitNext] at hy
    cases hlive : s.liveIn overlay x with
    | none => simp [hlive] at hy
    | some record =>
      refine ⟨record, hlive, ?_⟩
      simp only [hlive] at hy
      by_cases hmem : x ∈ walked
      · rw [if_pos hmem] at hy
        exact .inl hy
      · rw [if_neg hmem] at hy
        exact (List.mem_append.mp hy).imp id howned
  refine ⟨fun walked x y hy => ?_, hnext, fun walked R R' hR hpromise w hw y hy =>
    hR y (hpromise w hw y hy), fun walked x R hpromise => ?_, fun walked x y R hpromise hedge => ?_⟩
  · obtain ⟨record, hrecord, hwaits | howns⟩ := hnext walked x y hy
    · refine List.mem_append_right _ (List.mem_flatMap.mpr ⟨_, record_mem hrecord, hwaits⟩)
    · obtain ⟨⟨owned, hlive, _⟩, _⟩ := howns
      refine List.mem_append_left _ (List.mem_append_right _ ?_)
      exact List.mem_map.mpr ⟨_, record_mem hlive, rfl⟩
  · intro w hw y hy
    rw [waitNext] at hw ⊢
    cases hlive : s.liveIn overlay x with
    | none =>
      simp only [hlive] at hw
      exact .inl (hpromise w hw y hy)
    | some record =>
      simp only [hlive] at hw ⊢
      by_cases hmem : x ∈ walked
      · rw [if_pos hmem] at hw
        exact .inl (hpromise w hw y hy)
      · rw [if_neg hmem] at hw ⊢
        -- what a task found below `x` owns is owned by `x`
        have hx : s.OwnsIn overlay x y ∨ w ∈ walked := by
          rcases List.mem_append.mp hw with hfound | hw
          · exact .inl ((howned hfound).trans hy)
          · rcases List.mem_cons.mp hw with rfl | hw
            · exact .inl hy
            · exact .inr hw
        rcases hx with hx | hw
        · exact (h.found_or_walked htree hstages hpromise hx).imp id (List.mem_append_right _)
        · exact .inl (hpromise w hw y hy)
  · obtain ⟨record, hrecord, hedge⟩ := hedge
    rw [waitNext, Option.mem_def.mp hrecord]
    by_cases hmem : x ∈ walked
    · simp only [if_pos hmem]
      exact hedge.symm.imp (hpromise x hmem y) id
    · simp only [if_neg hmem]
      rcases hedge with hwaits | howns
      · exact .inr (List.mem_append_left _ hwaits)
      · exact (h.found_or_walked htree hstages hpromise howns).imp id (List.mem_append_right _)

/-- `#waitCycle` ends, and it returns a path exactly when the candidates' graph, as far as it is
known, has one. -/
theorem Sound.waitCycle (h : s.Sound r) (htree : r.IsTree) (hstages : overlay.Stages r)
    (task : TaskId) (on : List TaskId) (fuel : Nat)
    (hfuel : (s.waitScope overlay on).length < fuel) :
    ∃ result, s.waitCycle overlay fuel task on = some result ∧
      Search.Answers (s.WaitsIn overlay) on task result := by
  refine Search.search_exact (h.waitVisits htree hstages on)
    (fun _ w (hw : w ∈ []) => absurd hw List.not_mem_nil) (fun m hm => ?_) task fuel hfuel
  exact List.mem_append_left _ (List.mem_append_left _ hm)

end Index

end ThreeXhaust.Harness
