import ThreeXhaust.Harness.Waits
import ThreeXhaust.Lib.Except

/-!
# The wait-for graph is acyclic

Runs of the scheduler from an empty store: publications in which no task begins to wait, commits in
which a running task does, chain loads, sweeps, ends of jobs and restarts, in any order. The check
of a wait is a decision region: one that reads what an unpublished commit writes is run again once
that is published, so the check is made on the tables that its commit follows.
-/

namespace ThreeXhaust.Harness

open Relation

/-! ## The graph -/

namespace Records

variable (r : Records)

/-- `x` cannot settle before `y`. -/
def WaitsFor (x y : TaskId) : Prop :=
  (∃ record ∈ r.live x, y ∈ record.waits ∧ (r.live y).isSome = true) ∨
    ((r.live x).isSome = true ∧ r.Owns x y)

def Acyclic : Prop := ∀ x, ¬TransGen r.WaitsFor x x

/-- The wait-for graph has a cycle once `task` waits on `on`. -/
def Closes (task : TaskId) (on : List TaskId) : Prop :=
  ∃ x, TransGen (fun a b => r.WaitsFor a b ∨ a = task ∧ b ∈ on) x x

def ChildrenHeld : Prop :=
  ∀ id record, r.tasks.lookup id = some record → record.owner.isSome = true →
    record.background = false

/-- A commit in which no task begins to wait; what it creates is pending, and in the background only
without an owner. -/
def keepsWaits (changes : List Change) : Bool :=
  changes.all fun
    | .conversation _ _ => true
    | .task record =>
      match r.tasks.lookup record.id with
      | none => record.state = .pending && (record.owner.isNone || !record.background)
      | some old => record.waits.all (· ∈ old.waits)

end Records

namespace Records

variable {r r' : Records} {changes : List Change} {n m : Node} {x y : TaskId}
  {record : TaskRecord}

theorem live_eq_some :
    r.live x = some record ↔ r.tasks.lookup x = some record ∧ record.state.isTerminal = false := by
  rw [live, Option.filter_eq_some_iff, Bool.not_eq_true']

theorem IsTree.climbs {enter : Node → Bool} (h : r.IsTree) (hclimbs : Forest.Climbs r.up enter n m) :
    (r.parent m).isSome = true ∧ m.id < n.id := by
  induction hclimbs with
  | base hup => exact h.parent_lt (Option.join_eq_some_iff.mp hup)
  | step hup _ _ ih =>
    exact ⟨ih.1, Nat.lt_trans ih.2 (h.parent_lt (Option.join_eq_some_iff.mp hup)).2⟩

theorem parent_isSome_task : (r.parent (.task x)).isSome = (r.tasks.lookup x).isSome := by
  rw [parent, Option.isSome_map]

theorem Extends.live (h : r.Extends r') (hx : (r.tasks.lookup x).isSome = true)
    (hlive : r'.live x = some record) :
    ∃ old, r.live x = some old ∧ old.toTaskNode = record.toTaskNode := by
  obtain ⟨old, hold⟩ := Option.isSome_iff_exists.mp hx
  obtain ⟨hrecord, hterminal⟩ := live_eq_some.mp hlive
  have hnot : old.state.isTerminal = false := by
    by_contra hterm
    have hsame := h.terminal x old hold (by simpa using hterm)
    rw [hrecord, Option.some.injEq] at hsame
    rw [hsame] at hterminal
    exact hterm hterminal
  obtain ⟨new, hnew, hnode⟩ := h.tasks x old hold
  obtain rfl : new = record := by simpa [hrecord] using hnew.symm
  exact ⟨old, live_eq_some.mpr ⟨hold, hnot⟩, hnode.symm⟩

theorem Extends.climbs_iff (h : r.Extends r') (htree : r.IsTree) (hn : (r.parent n).isSome = true)
    (crossBackground : Bool) :
    Forest.Climbs r.up (r.enters crossBackground) n m ↔
      Forest.Climbs r'.up (r'.enters crossBackground) n m := by
  refine Forest.climbs_congr (fun n (hn : (r.parent n).isSome = true) => ?_) hn
  obtain ⟨e, he⟩ := Option.isSome_iff_exists.mp hn
  refine ⟨by rw [up, up, he, h.parent he], ?_, fun p hp => ?_⟩
  · cases n with
    | conversation c => rfl
    | task id =>
      obtain ⟨old, hold, _⟩ := Option.map_eq_some_iff.mp he
      obtain ⟨new, hnew, hnode⟩ := h.tasks id old hold
      simp only [enters, hold, hnew]
      rw [hnode]
  · exact (htree.parent_lt (Option.join_eq_some_iff.mp hp)).1

theorem Extends.owns (h : r.Extends r') (htree : r.IsTree) (hy : (r.tasks.lookup y).isSome = true)
    (howns : r'.Owns x y) : r.Owns x y ∧ (r.tasks.lookup x).isSome = true := by
  obtain ⟨⟨record, hlive, hbackground⟩, hclimbs⟩ := howns
  rw [← h.climbs_iff htree (parent_isSome_task ▸ hy)] at hclimbs
  obtain ⟨old, hold, hnode⟩ := h.live hy hlive
  refine ⟨⟨⟨old, hold, ?_⟩, hclimbs⟩, parent_isSome_task ▸ (htree.climbs hclimbs).1⟩
  rw [hnode]
  exact hbackground

/-! ## Commits in which no task begins to wait -/

theorem waits_of_keepsWaits (hkeeps : r.keepsWaits changes = true)
    (hlive : (r.apply changes).live x = some record) (hid : ∀ old ∈ r.tasks.lookup x, old.id = x) :
    ∀ m ∈ record.waits, ∃ old ∈ r.tasks.lookup x, m ∈ old.waits := by
  intro m hm
  rcases task_of_lookup (live_eq_some.mp hlive).1 with hbefore | ⟨hmem, rfl⟩
  · exact ⟨record, hbefore, hm⟩
  · have hchange := List.all_eq_true.mp hkeeps _ hmem
    cases hold : r.tasks.lookup record.id with
    | none =>
      simp only [hold, Bool.and_eq_true, decide_eq_true_eq] at hchange
      rw [TaskRecord.waits, hchange.1] at hm
      cases hm
    | some old =>
      simp only [hold, List.all_eq_true, decide_eq_true_eq] at hchange
      exact ⟨old, rfl, hchange m hm⟩

theorem childrenHeld_apply (hheld : r.ChildrenHeld) (hext : r.Extends (r.apply changes))
    (hkeeps : r.keepsWaits changes = true) : (r.apply changes).ChildrenHeld := by
  intro id record hid howner
  rcases task_of_lookup hid with hbefore | ⟨hmem, rfl⟩
  · exact hheld id record hbefore howner
  · have hchange := List.all_eq_true.mp hkeeps _ hmem
    cases hold : r.tasks.lookup record.id with
    | none =>
      simp only [hold, Bool.and_eq_true, Bool.or_eq_true] at hchange
      have hnone := hchange.2.resolve_left fun hnone => by
        rw [Option.isNone_iff_eq_none] at hnone
        rw [hnone] at howner
        cases howner
      simpa using hnone
    | some old =>
      obtain ⟨new, hnew, hnode⟩ := hext.tasks _ old hold
      obtain rfl : new = record := by simpa [hid] using hnew.symm
      have hback : new.background = old.background := congrArg TaskNode.background hnode
      have hown : new.owner = old.owner := congrArg TaskNode.owner hnode
      rw [hback]
      exact hheld _ old hold (hown ▸ howner)

theorem waitsFor_of_apply (htree : r.IsTree) (hext : r.Extends (r.apply changes))
    (hkeeps : r.keepsWaits changes = true) (hy : (r.tasks.lookup y).isSome = true)
    (hedge : (r.apply changes).WaitsFor x y) :
    r.WaitsFor x y ∧ (r.tasks.lookup x).isSome = true := by
  rcases hedge with ⟨record, hrecord, hwaits, hlive⟩ | ⟨hlive, howns⟩
  · obtain ⟨old, hold, hm⟩ :=
      waits_of_keepsWaits hkeeps hrecord (fun old hold => (htree.task hold).1) y hwaits
    have hx : (r.tasks.lookup x).isSome = true := by
      rw [Option.mem_def.mp hold]
      rfl
    obtain ⟨before, hbefore, _⟩ := hext.live hx hrecord
    obtain rfl : before = old := by
      have hlookup := (live_eq_some.mp hbefore).1
      simpa [Option.mem_def.mp hold] using hlookup.symm
    obtain ⟨new, hnew⟩ := Option.isSome_iff_exists.mp hlive
    obtain ⟨target, htarget, _⟩ := hext.live hy hnew
    exact ⟨.inl ⟨before, hbefore, hm, by rw [htarget]; rfl⟩, hx⟩
  · obtain ⟨hbefore, hx⟩ := hext.owns htree hy howns
    obtain ⟨record, hrecord⟩ := Option.isSome_iff_exists.mp hlive
    obtain ⟨old, hold, _⟩ := hext.live hx hrecord
    exact ⟨.inr ⟨by rw [hold]; rfl, hbefore⟩, hx⟩

theorem waitsFor_of_new (htree : r.IsTree) (htree' : (r.apply changes).IsTree)
    (hext : r.Extends (r.apply changes)) (hkeeps : r.keepsWaits changes = true)
    (hx : r.tasks.lookup x = none) (hedge : (r.apply changes).WaitsFor x y) :
    r.tasks.lookup y = none ∧ x < y := by
  have hnew : r.tasks.lookup y = none := by
    by_contra hy
    have hsome := (waitsFor_of_apply htree hext hkeeps (Option.isSome_iff_ne_none.mpr hy) hedge).2
    rw [hx] at hsome
    cases hsome
  refine ⟨hnew, ?_⟩
  rcases hedge with ⟨record, hrecord, hwaits, _⟩ | ⟨_, _, hclimbs⟩
  · obtain ⟨old, hold, _⟩ :=
      waits_of_keepsWaits hkeeps hrecord (fun old hold => (htree.task hold).1) y hwaits
    rw [hx] at hold
    cases hold
  · exact (htree'.climbs hclimbs).2

theorem transGen_of_apply (htree : r.IsTree) (hext : r.Extends (r.apply changes))
    (hkeeps : r.keepsWaits changes = true) (hy : (r.tasks.lookup y).isSome = true)
    (hpath : TransGen (r.apply changes).WaitsFor x y) :
    TransGen r.WaitsFor x y ∧ (r.tasks.lookup x).isSome = true := by
  induction hpath using TransGen.head_induction_on with
  | single hedge =>
    obtain ⟨hbefore, hx⟩ := waitsFor_of_apply htree hext hkeeps hy hedge
    exact ⟨.single hbefore, hx⟩
  | head hedge _ ih =>
    obtain ⟨hbefore, hx⟩ := waitsFor_of_apply htree hext hkeeps ih.2 hedge
    exact ⟨.head hbefore ih.1, hx⟩

theorem acyclic_apply (h : r.Acyclic) (htree : r.IsTree) (htree' : (r.apply changes).IsTree)
    (hext : r.Extends (r.apply changes)) (hkeeps : r.keepsWaits changes = true) :
    (r.apply changes).Acyclic := by
  intro x hcycle
  cases hx : r.tasks.lookup x with
  | some old => exact h x (transGen_of_apply htree hext hkeeps (by rw [hx]; rfl) hcycle).1
  | none =>
    -- from a new task the edges lead to younger ones only
    have hyounger : ∀ y, TransGen (r.apply changes).WaitsFor x y →
        r.tasks.lookup y = none ∧ x < y := by
      intro y hpath
      induction hpath with
      | single hedge => exact waitsFor_of_new htree htree' hext hkeeps hx hedge
      | tail _ hedge ih =>
        obtain ⟨hnew, hlt⟩ := waitsFor_of_new htree htree' hext hkeeps ih.1 hedge
        exact ⟨hnew, Nat.lt_trans ih.2 hlt⟩
    exact Nat.lt_irrefl x (hyounger x hcycle).2

end Records

/-! ## Closing a cycle -/

namespace Records

variable {r : Records} {x y task : TaskId} {on : List TaskId}

/-- A path that may use a wait of `task` on `on` does without it, or comes to `task` before its
first use and from a member of `on` behind its last. -/
theorem transGen_or (hpath : TransGen (fun a b => r.WaitsFor a b ∨ a = task ∧ b ∈ on) x y) :
    TransGen r.WaitsFor x y ∨
      ReflTransGen r.WaitsFor x task ∧ ∃ m ∈ on, ReflTransGen r.WaitsFor m y := by
  induction hpath with
  | single hedge =>
    rcases hedge with hedge | ⟨rfl, hm⟩
    · exact .inl (.single hedge)
    · exact .inr ⟨.refl, _, hm, .refl⟩
  | tail _ hedge ih =>
    rcases hedge with hedge | ⟨rfl, hm⟩
    · exact ih.imp (.tail · hedge) fun h => ⟨h.1, h.2.imp fun m hm => ⟨hm.1, hm.2.tail hedge⟩⟩
    · right
      rcases ih with hbefore | ⟨hbefore, _⟩
      · exact ⟨hbefore.to_reflTransGen, _, hm, .refl⟩
      · exact ⟨hbefore, _, hm, .refl⟩

theorem closes_iff (h : r.Acyclic) :
    r.Closes task on ↔ ∃ m ∈ on, ReflTransGen r.WaitsFor m task := by
  constructor
  · rintro ⟨x, hcycle⟩
    rcases transGen_or hcycle with hold | ⟨hx, m, hm, hback⟩
    · exact absurd hold (h x)
    · exact ⟨m, hm, hback.trans hx⟩
  · rintro ⟨m, hm, hpath⟩
    refine ⟨task, TransGen.head' (.inr ⟨rfl, hm⟩) ?_⟩
    exact ReflTransGen.mono (fun _ _ hedge => .inl hedge) _ _ hpath

end Records

/-! ## The check of a wait -/

namespace Index

variable {s : Index} {r : Records} {overlay : Overlay} {n : Node} {x y task : TaskId}
  {on : List TaskId}

def Loaded (s : Index) : Prop :=
  ∀ id ∈ s.unloaded, s.isLive (.task id) = false

instance (s : Index) : Decidable s.Loaded :=
  inferInstanceAs (Decidable (∀ id ∈ s.unloaded, s.isLive (.task id) = false))

theorem Sound.knownUp_of_upTo (h : s.Sound r) (hstages : overlay.Stages r) (hup : s.UpTo none n) :
    s.KnownUp overlay n := by
  induction hup with
  | here hstop => cases hstop
  | root hroot => exact .root (h.parentIn_of_parent hstages hroot)
  | step hparent _ ih => exact .step (h.parentIn_of_parent hstages hparent) ih

end Index

namespace Overlay

variable {overlay : Overlay} {r : Records} {x : TaskId} {record : TaskRecord}

theorem Stages.extends (h : overlay.Stages r) : r.Extends (r.apply overlay.changes) := by
  refine ⟨fun c owner hc => ?_, fun id old hid => ?_, fun id old hid hterminal => ?_⟩
  · rw [Records.conversations_apply_overlay h]
    cases hedge : overlay.edges.lookup c with
    | none => exact hc
    | some other =>
      have hfree := h.edges _ (Assoc.mem_of_lookup hedge)
      rw [hc] at hfree
      cases hfree
  · rw [Records.tasks_apply_overlay h]
    cases hnew : overlay.tasks.lookup id with
    | none => exact ⟨old, hid, rfl⟩
    | some new => exact ⟨new, rfl, ((h.tasks _ (Assoc.mem_of_lookup hnew) old hid).2).symm⟩
  · rw [Records.tasks_apply_overlay h]
    cases hnew : overlay.tasks.lookup id with
    | none => exact hid
    | some new =>
      have hlive := (h.tasks _ (Assoc.mem_of_lookup hnew) old hid).1
      rw [hterminal] at hlive
      cases hlive

end Overlay

namespace System

variable {s : System} {overlay : Overlay} {x y task : TaskId} {on : List TaskId}

/-- A decision on the candidates of `overlay` in a state whose chains are loaded. -/
structure Decides (s : System) (overlay : Overlay) : Prop where
  inv : s.Inv
  whole : s.Whole
  loaded : s.index.Loaded
  stages : overlay.Stages s.records

theorem Decides.knownUp (h : s.Decides overlay) (hlive : (s.records.live x).isSome = true) :
    s.index.KnownUp overlay (.task x) := by
  obtain ⟨record, hrecord⟩ := Option.isSome_iff_exists.mp hlive
  have hindex := (h.inv.sound.live x record).mpr (Records.live_eq_some.mp hrecord)
  have hknown : (s.index.node x).isSome = true := by
    rw [Known.node, hindex]
    rfl
  refine h.inv.sound.knownUp_of_upTo h.stages (h.whole.upTo hknown fun hmem => ?_)
  have hnot := h.loaded x hmem
  rw [Known.isLive, hindex] at hnot
  cases hnot

theorem Decides.waitsIn (h : s.Decides overlay) (hy : (s.records.tasks.lookup y).isSome = true)
    (hedge : (s.records.apply overlay.changes).WaitsFor x y) : s.index.WaitsIn overlay x y := by
  rcases hedge with ⟨record, hrecord, hwaits, _⟩ | ⟨hlive, howns⟩
  · exact ⟨record, h.inv.sound.liveIn_eq h.stages x ▸ hrecord, .inl hwaits⟩
  · obtain ⟨record, hrecord⟩ := Option.isSome_iff_exists.mp hlive
    refine ⟨record, h.inv.sound.liveIn_eq h.stages x ▸ hrecord, .inr ?_⟩
    obtain ⟨new, hnew, _⟩ := howns.1
    obtain ⟨old, hold, _⟩ := h.stages.extends.live hy hnew
    exact (h.inv.sound.ownsIn_iff h.stages (h.knownUp (by rw [hold]; rfl))).mpr howns

theorem Decides.reaches (h : s.Decides overlay)
    (hkeeps : s.records.keepsWaits overlay.changes = true)
    (htask : (s.records.tasks.lookup task).isSome = true)
    (hpath : ReflTransGen (s.records.apply overlay.changes).WaitsFor x task) :
    ReflTransGen (s.index.WaitsIn overlay) x task ∧
      (s.records.tasks.lookup x).isSome = true := by
  induction hpath using ReflTransGen.head_induction_on with
  | refl => exact ⟨.refl, htask⟩
  | head hedge _ ih =>
    have hx := (Records.waitsFor_of_apply h.inv.tree h.stages.extends hkeeps ih.2 hedge).2
    exact ⟨.head (h.waitsIn ih.2 hedge) ih.1, hx⟩

theorem Decides.reflTransGen (h : s.Decides overlay)
    (htask : ((s.records.apply overlay.changes).live task).isSome = true)
    (hpath : ReflTransGen (s.index.WaitsIn overlay) x task) :
    ReflTransGen (s.records.apply overlay.changes).WaitsFor x task ∧
      ((s.records.apply overlay.changes).live x).isSome = true := by
  induction hpath using ReflTransGen.head_induction_on with
  | refl => exact ⟨.refl, htask⟩
  | @head a _ hedge _ ih =>
    obtain ⟨record, hrecord, hedge⟩ := hedge
    rw [h.inv.sound.liveIn_eq h.stages] at hrecord
    have hlive : ((s.records.apply overlay.changes).live a).isSome = true := by
      rw [Option.mem_def.mp hrecord]
      rfl
    refine ⟨.head ?_ ih.1, hlive⟩
    rcases hedge with hwaits | howns
    · exact .inl ⟨record, hrecord, hwaits, ih.2⟩
    · exact .inr ⟨hlive, h.inv.sound.owns_of_ownsIn h.stages howns⟩

theorem Decides.acyclic (h : s.Decides overlay) (hacyclic : s.records.Acyclic)
    (hkeeps : s.records.keepsWaits overlay.changes = true) :
    (s.records.apply overlay.changes).Acyclic :=
  Records.acyclic_apply hacyclic h.inv.tree h.stages.tree h.stages.extends hkeeps

/-- **`#waitCycle` is exact**: it ends, and it returns a path exactly when the wait would close a
cycle in the graph of the candidates. -/
theorem Decides.waitCycle (h : s.Decides overlay) (hacyclic : s.records.Acyclic)
    (hkeeps : s.records.keepsWaits overlay.changes = true)
    (hold : (s.records.tasks.lookup task).isSome = true)
    (hlive : ((s.records.apply overlay.changes).live task).isSome = true) (on : List TaskId)
    (fuel : Nat) (hfuel : (s.index.waitScope overlay on).length < fuel) :
    ∃ result, s.index.waitCycle overlay fuel task on = some result ∧
      (result.isSome = true ↔ (s.records.apply overlay.changes).Closes task on) := by
  obtain ⟨result, hresult, hanswers⟩ :=
    h.inv.sound.waitCycle h.inv.tree h.stages task on fuel hfuel
  refine ⟨result, hresult, ?_⟩
  rw [Records.closes_iff (h.acyclic hacyclic hkeeps)]
  cases result with
  | some path =>
    obtain ⟨m, hm, hpath⟩ := Search.IsPath.reflTransGen hanswers
    exact iff_of_true rfl ⟨m, hm, (h.reflTransGen hlive hpath).1⟩
  | none =>
    refine iff_of_false (by simp) ?_
    rintro ⟨m, hm, hpath⟩
    exact hanswers m hm (h.reaches hkeeps hold hpath).1

end System

/-! ## What an accepted wait waits on -/

namespace Index

variable {s : Index} {r : Records} {overlay : Overlay} {current : TaskRecord} {on : List TaskId}
  {policy : JoinPolicy} {ended : List (TaskId × Option TaskRecord)} {targets : List TaskId}

theorem waitTargets_ok (h : s.waitTargets overlay ended current policy on = .ok (targets, [])) :
    ∀ m ∈ on, ∃ member, s.waitMember overlay ended m = some (some member) ∧
      (member.state.isTerminal = false → member.owner ≠ some current.id → m ∈ targets) := by
  induction on generalizing targets with
  | nil => simp
  | cons id on ih =>
    rw [waitTargets] at h
    cases hmember : s.waitMember overlay ended id with
    | none =>
      simp only [hmember] at h
      obtain ⟨⟨_, missing⟩, _, h⟩ := Except.bind_eq_ok.mp h
      cases h
    | some found =>
      cases found with
      | none => simp [hmember] at h
      | some member =>
        simp only [hmember] at h
        split at h
        · cases h
        · obtain ⟨⟨rest, missing⟩, hrest, h⟩ := Except.bind_eq_ok.mp h
          intro m hm
          split at h
          · cases h
            rcases List.mem_cons.mp hm with rfl | hm
            · exact ⟨member, hmember, fun _ _ => List.mem_cons_self⟩
            · obtain ⟨other, hother, htarget⟩ := ih hrest m hm
              exact ⟨other, hother, fun hlive howner =>
                List.mem_cons_of_mem _ (htarget hlive howner)⟩
          · rename_i hnot
            cases h
            rcases List.mem_cons.mp hm with rfl | hm
            · exact ⟨member, hmember, fun hlive howner => absurd ⟨hlive, howner⟩ hnot⟩
            · exact ih hrest m hm

theorem validateLoop_ok (fuel : Nat)
    (hended : ∀ id found, ended.lookup id = some found → found = r.tasks.lookup id)
    (h : s.validateLoop r overlay current on policy fuel ended = .ok ()) :
    ∃ ended targets,
      (∀ id found, ended.lookup id = some found → found = r.tasks.lookup id) ∧
      s.waitTargets overlay ended current policy on = .ok (targets, []) ∧
      (targets = [] ∨ ∀ cycle, s.waitCycle overlay ((s.waitScope overlay targets).length + 1)
        current.id targets ≠ some (some cycle)) := by
  induction fuel generalizing ended with
  | zero => cases h
  | succ fuel ih =>
    rw [validateLoop] at h
    cases hchecked : s.checkWait overlay ended current on policy with
    | error message => simp [hchecked] at h
    | missing ids =>
      simp only [hchecked] at h
      refine ih ?_ h
      clear h hchecked
      induction ids generalizing ended with
      | nil => exact hended
      | cons id ids ih =>
        refine ih fun other found hfound => ?_
        rw [Assoc.lookup_set] at hfound
        split at hfound
        · rename_i heq
          subst heq
          exact (Option.some.inj hfound).symm
        · exact hended other found hfound
    | ok =>
      rw [checkWait] at hchecked
      cases htargets : s.waitTargets overlay ended current policy on with
      | error message => simp [htargets] at hchecked
      | ok found =>
        obtain ⟨targets, missing⟩ := found
        simp only [htargets] at hchecked
        have hmissing : missing = [] := by
          by_contra hne
          rw [if_pos (by simpa using hne)] at hchecked
          cases hchecked
        subst hmissing
        refine ⟨ended, targets, hended, htargets, ?_⟩
        by_cases hempty : targets = []
        · exact .inl hempty
        · right
          rintro cycle hcycle
          simp [hcycle, hempty] at hchecked

end Index

/-! ## A wait -/

/-- `tx.setTask` over what the commit staged. -/
def Overlay.put (overlay : Overlay) (record : TaskRecord) : Overlay :=
  { overlay with tasks := Assoc.set overlay.tasks record.id record }

def waitRecord (current : TaskRecord) (on : List TaskId) (policy : JoinPolicy) : TaskRecord :=
  { current with state := .waiting on policy }

namespace Records

variable {r r' : Records} {x y : TaskId}

theorem owns_congr (hparent : ∀ n, r'.parent n = r.parent n)
    (henters : ∀ n, r'.enters false n = r.enters false n)
    (hlive : ∀ id, (r'.live id).map (·.toTaskNode) = (r.live id).map (·.toTaskNode)) :
    r'.Owns x y ↔ r.Owns x y := by
  have hbackground : ∀ t : Records, (∃ record ∈ t.live y, record.background = false) ↔
      ∃ node ∈ (t.live y).map (·.toTaskNode), node.background = false := by
    intro t
    cases t.live y <;> simp
  rw [Owns, Owns, hbackground, hbackground, hlive]
  refine and_congr_right fun _ => ?_
  refine (Forest.climbs_congr (fun n (_ : True) => ⟨?_, (henters n), fun _ _ => trivial⟩) trivial).symm
  rw [up, up, hparent]

theorem tasks_apply_put {overlay : Overlay} {record : TaskRecord} (h : overlay.Stages r)
    (hput : (overlay.put record).Stages r) (x : TaskId) :
    (r.apply (overlay.put record).changes).tasks.lookup x
      = if x = record.id then some record else (r.apply overlay.changes).tasks.lookup x := by
  rw [tasks_apply_overlay hput, tasks_apply_overlay h]
  show ((Assoc.set overlay.tasks record.id record).lookup x).or _ = _
  rw [Assoc.lookup_set]
  split <;> rfl

end Records

namespace System

variable {s : System} {overlay : Overlay} {id : TaskId} {current : TaskRecord} {on : List TaskId}
  {policy : JoinPolicy}

theorem Decides.not_closes (h : s.Decides overlay) (hacyclic : s.records.Acyclic)
    (hheld : s.records.ChildrenHeld) (hkeeps : s.records.keepsWaits overlay.changes = true)
    (hcurrent : s.index.live.lookup id = some current) (hfresh : overlay.tasks.lookup id = none)
    (hvalidated : s.index.validateWait s.records overlay current on policy = .ok ()) :
    ¬(s.records.apply overlay.changes).Closes id on := by
  have hid : s.records.tasks.lookup id = some current ∧ current.state.isTerminal = false :=
    (h.inv.sound.live id current).mp hcurrent
  have hself : current.id = id := (h.inv.tree.task hid.1).1
  have hlive : (s.records.apply overlay.changes).live id = some current := by
    rw [Records.live_eq_some, Records.tasks_apply_overlay h.stages, hfresh]
    exact hid
  have hacyclic' := h.acyclic hacyclic hkeeps
  obtain ⟨ended, targets, hended, htargets, hsearch⟩ :=
    Index.validateLoop_ok _ (by simp) hvalidated
  rw [Records.closes_iff hacyclic']
  rintro ⟨m, hm, hpath⟩
  -- a member that leads back to the waiter is live
  have hmlive : ((s.records.apply overlay.changes).live m).isSome = true := by
    cases hpath using ReflTransGen.head_induction_on with
    | refl => rw [hlive]; rfl
    | head hedge _ =>
      rcases hedge with ⟨record, hrecord, _⟩ | ⟨hsome, _⟩
      · rw [Option.mem_def.mp hrecord]
        rfl
      · exact hsome
  obtain ⟨record, hrecord⟩ := Option.isSome_iff_exists.mp hmlive
  obtain ⟨member, hmember, htarget⟩ := Index.waitTargets_ok htargets m hm
  have hsame : member = record := by
    have hlookup := (Records.live_eq_some.mp hrecord).1
    rw [Records.tasks_apply_overlay h.stages] at hlookup
    rw [Index.waitMember, Index.record] at hmember
    cases hnew : overlay.tasks.lookup m with
    | some new =>
      rw [hnew] at hlookup hmember
      simp only [Option.some.injEq] at hmember
      rw [Option.some_or, Option.some.injEq] at hlookup
      exact hmember.symm.trans hlookup
    | none =>
      rw [hnew] at hlookup hmember
      rw [Option.none_or] at hlookup
      cases hindex : s.index.live.lookup m with
      | some known =>
        simp only [hindex, Option.some.injEq] at hmember
        have hknown := ((h.inv.sound.live m known).mp hindex).1
        rw [hlookup, Option.some.injEq] at hknown
        exact hmember.symm.trans hknown.symm
      | none =>
        simp only [hindex] at hmember
        have hread := hended m _ hmember
        rw [hlookup, Option.some.injEq] at hread
        exact hread
  subst hsame
  have hterminal := (Records.live_eq_some.mp hrecord).2
  by_cases howner : member.owner = some current.id
  · -- a live child already holds the waiter
    have hchild : (s.records.apply overlay.changes).WaitsFor id m := by
      refine .inr ⟨by rw [hlive]; rfl, ⟨member, hrecord, ?_⟩, .base ?_⟩
      · exact Records.childrenHeld_apply hheld h.stages.extends hkeeps m member
          (Records.live_eq_some.mp hrecord).1 (by rw [howner]; rfl)
      · rw [Records.up, Records.parent, (Records.live_eq_some.mp hrecord).1]
        simp [parentNode, howner, hself]
    exact hacyclic' id (TransGen.head' hchild hpath)
  · have hmem := htarget hterminal howner
    have hnonempty : targets ≠ [] := List.ne_nil_of_mem hmem
    obtain ⟨result, hresult, hiff⟩ := h.waitCycle hacyclic hkeeps (by rw [hid.1]; rfl)
      (by rw [hlive]; rfl) targets _ (Nat.lt_succ_self _)
    have hcloses : (s.records.apply overlay.changes).Closes id targets :=
      (Records.closes_iff hacyclic').mpr ⟨m, hmem, hpath⟩
    obtain ⟨cycle, hcycle⟩ := Option.isSome_iff_exists.mp (hiff.mpr hcloses)
    exact hsearch.resolve_left hnonempty cycle (by rw [hself, hresult, hcycle])

theorem Decides.acyclic_wait (h : s.Decides overlay) (hacyclic : s.records.Acyclic)
    (hheld : s.records.ChildrenHeld) (hkeeps : s.records.keepsWaits overlay.changes = true)
    (hcurrent : s.index.live.lookup id = some current) (hfresh : overlay.tasks.lookup id = none)
    (hvalidated : s.index.validateWait s.records overlay current on policy = .ok ())
    (hput : (overlay.put (waitRecord current on policy)).Stages s.records) :
    (s.records.apply (overlay.put (waitRecord current on policy)).changes).Acyclic := by
  have hid : s.records.tasks.lookup id = some current ∧ current.state.isTerminal = false :=
    (h.inv.sound.live id current).mp hcurrent
  have hself : current.id = id := (h.inv.tree.task hid.1).1
  have hbefore : (s.records.apply overlay.changes).tasks.lookup id = some current := by
    rw [Records.tasks_apply_overlay h.stages, hfresh]
    exact hid.1
  have htasks : ∀ x, (s.records.apply (overlay.put (waitRecord current on policy)).changes).tasks.lookup x
      = if x = id then some (waitRecord current on policy)
        else (s.records.apply overlay.changes).tasks.lookup x := by
    intro x
    rw [Records.tasks_apply_put h.stages hput]
    show (if x = current.id then _ else _) = _
    rw [hself]
  have hparent : ∀ n, (s.records.apply (overlay.put (waitRecord current on policy)).changes).parent n
      = (s.records.apply overlay.changes).parent n := by
    intro n
    cases n with
    | conversation c =>
      rw [Records.parent, Records.parent, Records.conversations_apply_overlay hput,
        Records.conversations_apply_overlay h.stages]
      rfl
    | task x =>
      rw [Records.parent, Records.parent, htasks]
      by_cases hx : x = id
      · rw [if_pos hx, hx, hbefore]
        rfl
      · rw [if_neg hx]
  have henters : ∀ n, (s.records.apply (overlay.put (waitRecord current on policy)).changes).enters
      false n = (s.records.apply overlay.changes).enters false n := by
    intro n
    cases n with
    | conversation c => rfl
    | task x =>
      rw [Records.enters, Records.enters, htasks]
      by_cases hx : x = id
      · rw [if_pos hx, hx, hbefore]
        rfl
      · rw [if_neg hx]
  have hlive : ∀ x, (s.records.apply (overlay.put (waitRecord current on policy)).changes).live x
      = if x = id then some (waitRecord current on policy)
        else (s.records.apply overlay.changes).live x := by
    intro x
    rw [Records.live, Records.live, htasks]
    split <;> rfl
  have hlive' : (s.records.apply overlay.changes).live id = some current :=
    Records.live_eq_some.mpr ⟨hbefore, hid.2⟩
  have hsome : ∀ x, ((s.records.apply (overlay.put (waitRecord current on policy)).changes).live
      x).isSome = true → ((s.records.apply overlay.changes).live x).isSome = true := by
    intro x hx
    rw [hlive] at hx
    split at hx
    · rename_i heq
      rw [heq, hlive']
      rfl
    · exact hx
  have hedge : ∀ x y,
      (s.records.apply (overlay.put (waitRecord current on policy)).changes).WaitsFor x y →
      (s.records.apply overlay.changes).WaitsFor x y ∨ x = id ∧ y ∈ on := by
    rintro x y (⟨record, hrecord, hwaits, hy⟩ | ⟨hx, howns⟩)
    · rw [Option.mem_def, hlive] at hrecord
      split at hrecord
      · rename_i heq
        obtain rfl : waitRecord current on policy = record := by simpa using hrecord
        right
        refine ⟨heq, ?_⟩
        rw [TaskRecord.waits, waitRecord] at hwaits
        simp only at hwaits
        split at hwaits
        · cases hwaits
        · exact hwaits
      · exact .inl (.inl ⟨record, hrecord, hwaits, hsome y hy⟩)
    · left
      refine .inr ⟨hsome x hx, ?_⟩
      refine (Records.owns_congr hparent henters fun z => ?_).mp howns
      rw [hlive]
      split
      · rename_i heq
        rw [heq, hlive']
        rfl
      · rfl
  intro x hcycle
  have hnot := h.not_closes hacyclic hheld hkeeps hcurrent hfresh hvalidated
  exact hnot ⟨x, TransGen.mono hedge x x hcycle⟩

end System

/-! ## Runs -/

def Records.empty : Records :=
  { tasks := [], conversations := [] }

namespace System

inductive Event where
  | system (action : Action)
  /-- A commit of a running task `id` that waits on `on` behind what its callback staged. -/
  | wait (overlay : Overlay) (id : TaskId) (on : List TaskId) (policy : JoinPolicy)
  | restart

def waitChanges (s : System) (overlay : Overlay) (id : TaskId) (on : List TaskId)
    (policy : JoinPolicy) : List Change :=
  match s.index.live.lookup id with
  | none => []
  | some current => (overlay.put (waitRecord current on policy)).changes

def next (s : System) : Event → System
  | .system action => s.step action
  | .wait overlay id on policy => s.step (.publish (s.waitChanges overlay id on policy))
  | .restart => opened s.records

/-- `#gated` and `#commitState` let the wait of a running task through. -/
structure Accepts (s : System) (overlay : Overlay) (id : TaskId) (on : List TaskId)
    (policy : JoinPolicy) : Prop where
  loaded : s.index.Loaded
  stages : overlay.Stages s.records
  keeps : s.records.keepsWaits overlay.changes = true
  fresh : overlay.tasks.lookup id = none
  running : ∃ current ∈ s.index.live.lookup id, current.state = .running ∧
    current.abortRequested = false ∧
    s.index.validateWait s.records overlay current on policy = .ok ()
  put : ∀ current ∈ s.index.live.lookup id,
    (overlay.put (waitRecord current on policy)).Stages s.records

instance (s : System) (overlay : Overlay) (id : TaskId) (on : List TaskId) (policy : JoinPolicy) :
    Decidable (s.Accepts overlay id on policy) :=
  decidable_of_iff
    (s.index.Loaded ∧ overlay.Stages s.records ∧ s.records.keepsWaits overlay.changes = true ∧
      (overlay.tasks.lookup id).isNone = true ∧
      (∃ current ∈ s.index.live.lookup id, current.state = .running ∧
        current.abortRequested = false ∧
        s.index.validateWait s.records overlay current on policy = .ok ()) ∧
      ∀ current ∈ s.index.live.lookup id,
        (overlay.put (waitRecord current on policy)).Stages s.records)
    ⟨fun h => ⟨h.1, h.2.1, h.2.2.1, Option.isNone_iff_eq_none.mp h.2.2.2.1, h.2.2.2.2.1,
        h.2.2.2.2.2⟩,
      fun h => ⟨h.loaded, h.stages, h.keeps, Option.isNone_iff_eq_none.mpr h.fresh, h.running,
        h.put⟩⟩

def Quiet (s : System) : Action → Prop
  | .publish changes => s.records.keepsWaits changes = true
  | _ => True

def Allows (s : System) : Event → Prop
  | .system action => s.Valid action ∧ s.Quiet action
  | .wait overlay id on policy =>
    s.Accepts overlay id on policy ∧ s.Valid (.publish (s.waitChanges overlay id on policy))
  | .restart => True

instance (s : System) (action : Action) : Decidable (s.Quiet action) :=
  match action with
  | .publish changes => inferInstanceAs (Decidable (s.records.keepsWaits changes = true))
  | .loadChain _ _ | .turn | .install | .fail | .jobEnd _ | .sweep => isTrue trivial

instance (s : System) (event : Event) : Decidable (s.Allows event) :=
  match event with
  | .system action => inferInstanceAs (Decidable (s.Valid action ∧ s.Quiet action))
  | .wait overlay id on policy =>
    inferInstanceAs (Decidable (s.Accepts overlay id on policy ∧ s.Valid _))
  | .restart => isTrue trivial

/-- No sweep of the step takes a node out of a chain that counts as loaded. -/
def KeepsLoaded (s : System) : Event → Prop
  | .system action => s.Keeps action
  | .wait overlay id on policy => s.Keeps (.publish (s.waitChanges overlay id on policy))
  | .restart => True

structure Held (s : System) : Prop where
  inv : s.Inv
  whole : s.Whole
  acyclic : s.records.Acyclic
  children : s.records.ChildrenHeld

theorem held_empty : (opened Records.empty).Held := by
  have htree : Records.empty.IsTree := by decide
  refine ⟨inv_opened htree, whole_opened htree, fun x hcycle => ?_, fun id record hid => by cases hid⟩
  have hnone : ∀ x y, ¬Records.empty.WaitsFor x y := by
    rintro x y (⟨record, hrecord, _⟩ | ⟨hlive, _⟩)
    · cases hrecord
    · cases hlive
  cases hcycle using TransGen.head_induction_on with
  | single hedge => exact hnone _ _ hedge
  | head hedge _ => exact hnone _ _ hedge

theorem records_step {s : System} {action : Action} (hnot : ∀ changes, action ≠ .publish changes) :
    (s.step action).records = s.records := by
  cases action with
  | publish changes => exact absurd rfl (hnot changes)
  | loadChain start overlay => rfl
  | turn =>
    rw [step]
    cases s.load with
    | none => rfl
    | some load =>
      simp only
      split <;> rfl
  | install =>
    rw [step]
    cases s.load with
    | none => rfl
    | some load => rfl
  | fail => rfl
  | jobEnd node => rfl
  | sweep => rfl

theorem held_next {s : System} {event : Event} (h : s.Held) (hallows : s.Allows event)
    (hkeeps : s.KeepsLoaded event) : (s.next event).Held := by
  cases event with
  | restart =>
    exact ⟨inv_opened h.inv.tree, whole_opened h.inv.tree, h.acyclic, h.children⟩
  | system action =>
    obtain ⟨hvalid, hquiet⟩ := hallows
    have hrecords : (s.step action).records.Acyclic ∧ (s.step action).records.ChildrenHeld := by
      cases action with
      | publish changes =>
        have hext := Records.extends_apply hvalid.1
        exact ⟨Records.acyclic_apply h.acyclic h.inv.tree hvalid.2.2.1 hext hquiet,
          Records.childrenHeld_apply h.children hext hquiet⟩
      | loadChain start overlay | turn | install | fail | jobEnd node | sweep =>
        rw [records_step (by simp)]
        exact ⟨h.acyclic, h.children⟩
    exact ⟨inv_step h.inv hvalid, whole_step h.whole h.inv hvalid hkeeps, hrecords.1, hrecords.2⟩
  | wait overlay id on policy =>
    obtain ⟨haccepts, hvalid⟩ := hallows
    obtain ⟨current, hcurrent, _, _, hvalidated⟩ := haccepts.running
    have hput := haccepts.put current hcurrent
    have hdecides : s.Decides overlay := ⟨h.inv, h.whole, haccepts.loaded, haccepts.stages⟩
    have hchanges : s.waitChanges overlay id on policy
        = (overlay.put (waitRecord current on policy)).changes := by
      rw [waitChanges, Option.mem_def.mp hcurrent]
    refine ⟨inv_step h.inv hvalid, whole_step h.whole h.inv hvalid hkeeps, ?_, ?_⟩
    · show (s.records.apply (s.waitChanges overlay id on policy)).Acyclic
      rw [hchanges]
      exact hdecides.acyclic_wait h.acyclic h.children haccepts.keeps hcurrent haccepts.fresh
        hvalidated hput
    · show (s.records.apply (s.waitChanges overlay id on policy)).ChildrenHeld
      rw [hchanges]
      intro x record hx howner
      rw [Records.tasks_apply_put haccepts.stages hput] at hx
      split at hx
      · obtain rfl : waitRecord current on policy = record := by simpa using hx
        exact h.children id current ((h.inv.sound.live id current).mp hcurrent).1 howner
      · exact Records.childrenHeld_apply h.children haccepts.stages.extends haccepts.keeps x record
          hx howner

/-- **The wait-for graph is acyclic** in every state of every run whose sweeps take no node out of
a chain that counts as loaded; and once the chains are loaded, a check ends and finds a cycle exactly
when the wait would close one among the candidates of its commit. -/
theorem wait_graph_acyclic (s : System)
    (hrun : Run.Reachable next (fun s event => s.Allows event ∧ s.KeepsLoaded event)
      (opened Records.empty) s) :
    s.records.Acyclic ∧
      (s.index.Loaded → ∀ overlay : Overlay, overlay.Stages s.records →
        s.records.keepsWaits overlay.changes = true →
        ∀ task on, (s.records.tasks.lookup task).isSome = true →
          ((s.records.apply overlay.changes).live task).isSome = true →
          ∀ fuel, (s.index.waitScope overlay on).length < fuel →
            ∃ result, s.index.waitCycle overlay fuel task on = some result ∧
              (result.isSome = true ↔ (s.records.apply overlay.changes).Closes task on)) := by
  have hheld : s.Held := by
    refine hrun.invariant Held held_empty ?_
    rintro s event h ⟨hallows, hkeeps⟩
    exact held_next h hallows hkeeps
  refine ⟨hheld.acyclic, fun hloaded overlay hstages hkeeps task on hold hlive fuel hfuel => ?_⟩
  have hdecides : s.Decides overlay := ⟨hheld.inv, hheld.whole, hloaded, hstages⟩
  exact hdecides.waitCycle hheld.acyclic hkeeps hold hlive on fuel hfuel

/-! ## Runs with a wait -/

/-- Task 2 owns conversation 3, in which task 4 ran to its end and task 6 runs; task 4 owned
conversation 5. The store is opened again. -/
def sampleHistory : List Event :=
  [.system (.publish [.conversation 1 none, .task (sampleTask 2 1 .pending)]),
    .system (.publish [.conversation 3 (some 2), .task (sampleTask 4 3 .pending)]),
    .system (.publish [.conversation 5 (some 4), .task (sampleTask 6 3 .pending)]),
    .system (.publish [.task (sampleTask 2 1 .running), .task (sampleTask 6 3 .running)]),
    .system (.publish [.task (sampleTask 4 3 (.terminal .completed))]),
    .restart]

def sampleWait : List Event :=
  [.system (.publish [.conversation 1 none, .task (sampleTask 2 1 .pending)]),
    .system (.publish [.conversation 3 (some 2), .task (sampleTask 6 3 .pending)]),
    .system (.publish [.task (sampleTask 6 3 .running), .task (sampleTask 7 3 .pending)]),
    .system (.publish [.task (sampleTask 7 3 (.terminal .completed))]),
    .wait { tasks := [(8, sampleTask 8 3 .pending)], edges := [] } 6 [8] .allSettled]

/-- Behind the overlap that takes conversation 3 out of the chain of task 7, task 7 waits on
task 2, which owns it. -/
def sampleDeadlock : List Event :=
  sampleHistory ++ (sampleLoads ++ sampleOverlap).map .system ++
    [.system (.publish [.task (sampleTask 7 5 .running)]), .wait .empty 7 [2] .allSettled]

def dropsLeaves (s : System) : Event → Bool
  | .system action => s.sweepsLeaves action
  | .wait overlay id on policy => s.sweepsLeaves (.publish (s.waitChanges overlay id on policy))
  | .restart => true

theorem keepsLoaded_of_dropsLeaves {s : System} {event : Event}
    (h : s.dropsLeaves event = true) : s.KeepsLoaded event := by
  cases event with
  | system action => exact keeps_of_sweepsLeaves h
  | wait overlay id on policy =>
    have hleaves : s.sweepsLeaves (.publish (s.waitChanges overlay id on policy)) = true := h
    exact keeps_of_sweepsLeaves hleaves
  | restart => trivial

theorem wait_graph_acyclic_waiting :
    (sampleWait.foldl next (opened Records.empty)).records.Acyclic ∧
      ∃ result, (sampleWait.foldl next (opened Records.empty)).index.waitCycle .empty 10 2 [6]
        = some result ∧ (result.isSome = true ↔ ((sampleWait.foldl next
          (opened Records.empty)).records.apply Overlay.empty.changes).Closes 2 [6]) := by
  have hguarded : Run.Guarded next (fun s event => s.Allows event ∧ s.dropsLeaves event = true)
      (opened Records.empty) sampleWait := by
    decide
  have hrun : Run.Reachable next (fun s event => s.Allows event ∧ s.KeepsLoaded event)
      (opened Records.empty) (sampleWait.foldl next (opened Records.empty)) := by
    refine Run.reachable_foldl .init (hguarded.mono ?_)
    rintro s event ⟨hallows, hleaves⟩
    exact ⟨hallows, keepsLoaded_of_dropsLeaves hleaves⟩
  obtain ⟨hacyclic, hcheck⟩ := wait_graph_acyclic _ hrun
  exact ⟨hacyclic, hcheck (by decide) .empty (by decide) (by decide) 2 [6] (by decide) (by decide)
    10 (by decide)⟩

/-- The wait of task 7 is let through: the walk down from task 2 does not find it. -/
theorem swept_chain_hides_cycle :
    ¬∀ s, Run.Reachable next Allows (opened Records.empty) s → s.records.Acyclic := by
  intro h
  have hrun : Run.Reachable next Allows (opened Records.empty)
      (sampleDeadlock.foldl next (opened Records.empty)) :=
    Run.reachable_foldl .init (by decide)
  have hwaits : (sampleDeadlock.foldl next (opened Records.empty)).records.WaitsFor 7 2 :=
    .inl ⟨_, rfl, by decide, rfl⟩
  have howns : (sampleDeadlock.foldl next (opened Records.empty)).records.WaitsFor 2 7 := by
    refine .inr ⟨rfl, ⟨_, rfl, rfl⟩, ?_⟩
    -- by conversation 5, task 4 and conversation 3
    exact .step (p := .conversation 5) rfl rfl (.step (p := .task 4) rfl rfl
      (.step (p := .conversation 3) rfl rfl (.base rfl)))
  exact h _ hrun 7 (.tail (.single hwaits) howns)

end System

end ThreeXhaust.Harness
