import ThreeXhaust.Harness.OwnershipRuns

/-!
# Walks over the candidates of a commit

A decision of the scheduler is made on what its commit has staged so far: an overlay of candidate
records over the index. The tables that the commit would leave are `r.apply overlay.changes`. A
walk down takes the candidates in place of committed records, and `#links` adds the tasks that the
commit creates to `#below`. What is shown here is that the two together are again a forest, the
one of the candidate tables as far as it is known, so that a walk down finds exactly the tasks that
are live behind the commit and hang from its start.
-/

namespace ThreeXhaust.Harness

/-! ## The candidate tables -/

namespace Overlay

def changes (overlay : Overlay) : List Change :=
  overlay.edges.map (fun entry => .conversation entry.1 entry.2) ++
    overlay.tasks.map fun entry => .task entry.2

/-- The overlay is what a commit staged over `r`. -/
structure Stages (overlay : Overlay) (r : Records) : Prop where
  keys : (overlay.tasks.map (·.1)).Nodup
  ids : ∀ entry ∈ overlay.tasks, entry.2.id = entry.1
  conversations : (overlay.edges.map (·.1)).Nodup
  edges : ∀ entry ∈ overlay.edges, r.conversations.lookup entry.1 = none
  tasks : ∀ entry ∈ overlay.tasks, ∀ old ∈ r.tasks.lookup entry.1,
    old.state.isTerminal = false ∧ old.toTaskNode = entry.2.toTaskNode
  tree : (r.apply overlay.changes).IsTree

instance (overlay : Overlay) (r : Records) : Decidable (overlay.Stages r) :=
  decidable_of_iff
    ((overlay.tasks.map (·.1)).Nodup ∧ (∀ entry ∈ overlay.tasks, entry.2.id = entry.1) ∧
      (overlay.edges.map (·.1)).Nodup ∧
      (∀ entry ∈ overlay.edges, r.conversations.lookup entry.1 = none) ∧
      (∀ entry ∈ overlay.tasks, ∀ old ∈ r.tasks.lookup entry.1,
        old.state.isTerminal = false ∧ old.toTaskNode = entry.2.toTaskNode) ∧
      (r.apply overlay.changes).IsTree)
    ⟨fun h => ⟨h.1, h.2.1, h.2.2.1, h.2.2.2.1, h.2.2.2.2.1, h.2.2.2.2.2⟩,
      fun h => ⟨h.keys, h.ids, h.conversations, h.edges, h.tasks, h.tree⟩⟩

end Overlay

namespace Records

variable {r : Records} {overlay : Overlay} {id : TaskId} {c : ConversationId}

theorem apply_append (r : Records) (changes more : List Change) :
    r.apply (changes ++ more) = (r.apply changes).apply more :=
  List.foldl_append

theorem apply_conversations (r : Records) (edges : List (ConversationId × Option TaskId)) :
    r.apply (edges.map fun entry => .conversation entry.1 entry.2) =
      { r with conversations :=
          edges.foldl (fun table entry => Assoc.set table entry.1 entry.2) r.conversations } := by
  induction edges generalizing r with
  | nil => rfl
  | cons entry edges ih => exact ih _

theorem apply_tasks (r : Records) (tasks : List (TaskId × TaskRecord)) :
    r.apply (tasks.map fun entry => .task entry.2) =
      { r with tasks :=
          tasks.foldl (fun table entry => Assoc.set table entry.2.id entry.2) r.tasks } := by
  induction tasks generalizing r with
  | nil => rfl
  | cons entry tasks ih => exact ih _

theorem tasks_apply_overlay (h : overlay.Stages r) (id : TaskId) :
    (r.apply overlay.changes).tasks.lookup id = (overlay.tasks.lookup id).or (r.tasks.lookup id) := by
  rw [Overlay.changes, apply_append, apply_conversations, apply_tasks]
  show (overlay.tasks.foldl (fun table entry => Assoc.set table entry.2.id entry.2) r.tasks).lookup id
    = _
  exact Assoc.lookup_foldl_set overlay.tasks h.ids h.keys

theorem conversations_apply_overlay (h : overlay.Stages r) (c : ConversationId) :
    (r.apply overlay.changes).conversations.lookup c =
      (overlay.edges.lookup c).or (r.conversations.lookup c) := by
  rw [Overlay.changes, apply_append, apply_conversations, apply_tasks]
  show (overlay.edges.foldl (fun table entry => Assoc.set table entry.1 entry.2)
    r.conversations).lookup c = _
  exact Assoc.lookup_foldl_set overlay.edges (fun _ _ => rfl) h.conversations

end Records

/-! ## The candidate tree, as far as it is known -/

namespace Index

variable {s : Index} {r : Records} {overlay : Overlay} {n m p : Node} {id : TaskId}

def parentIn (s : Index) (overlay : Overlay) : Node → Option (Option Node)
  | .task id => (s.fields overlay id).map fun node => some (parentNode node)
  | .conversation id => (s.edge overlay id).map fun owner => owner.map .task

def upIn (s : Index) (overlay : Overlay) (n : Node) : Option Node :=
  (s.parentIn overlay n).join

theorem upIn_eq_some : s.upIn overlay n = some p ↔ s.parentIn overlay n = some (some p) := by
  rw [upIn, Option.join_eq_some_iff]

def liveIn (s : Index) (overlay : Overlay) (id : TaskId) : Option TaskRecord :=
  (s.record overlay id).filter fun record => !record.state.isTerminal

/-- A task of the overlay that is not known: the commit creates it. -/
def isNew (s : Index) (overlay : Overlay) (id : TaskId) : Prop :=
  (overlay.tasks.lookup id).isSome = true ∧ s.node id = none

theorem Sound.fields_of_node (h : s.Sound r) (hstages : overlay.Stages r) {node : TaskNode}
    (hnode : s.node id = some node) : s.fields overlay id = some node := by
  obtain ⟨old, hold, rfl⟩ := h.node hnode
  cases hoverlay : overlay.tasks.lookup id with
  | some new =>
    have hsame := hstages.tasks _ (Assoc.mem_of_lookup hoverlay) old hold
    simp [fields, record, hoverlay, hsame.2]
  | none =>
    rw [← hnode, fields, record, hoverlay, Known.node]

theorem Sound.parentIn_of_parent (h : s.Sound r) (hstages : overlay.Stages r) {e : Option Node}
    (hn : s.parent n = some e) : s.parentIn overlay n = some e := by
  cases n with
  | task id =>
    rw [Known.parent, Option.map_eq_some_iff] at hn
    obtain ⟨node, hnode, rfl⟩ := hn
    rw [parentIn, h.fields_of_node hstages hnode, Option.map_some]
  | conversation c =>
    rw [Known.parent, Option.map_eq_some_iff] at hn
    obtain ⟨owner, hc, rfl⟩ := hn
    have hnone : overlay.edges.lookup c = none := by
      cases hoverlay : overlay.edges.lookup c with
      | none => rfl
      | some other =>
        have hfree := hstages.edges _ (Assoc.mem_of_lookup hoverlay)
        rw [h.edges c owner hc] at hfree
        cases hfree
    rw [parentIn, Known.edge, hnone, hc, Option.map_some]

theorem Sound.parent_of_parentIn (h : s.Sound r) (hstages : overlay.Stages r) {e : Option Node}
    (hn : s.parentIn overlay n = some e) : (r.apply overlay.changes).parent n = some e := by
  cases n with
  | task id =>
    rw [parentIn, Option.map_eq_some_iff] at hn
    obtain ⟨node, hfields, rfl⟩ := hn
    rw [Records.parent, Records.tasks_apply_overlay hstages]
    cases hoverlay : overlay.tasks.lookup id with
    | some record =>
      simp only [fields, Index.record, hoverlay, Option.some.injEq] at hfields
      rw [Option.some_or, Option.map_some, hfields]
    | none =>
      have hnode : s.node id = some node := by
        rw [← hfields, fields, Index.record, hoverlay, Known.node]
      obtain ⟨record, hrecord, rfl⟩ := h.node hnode
      rw [Option.none_or, hrecord, Option.map_some]
  | conversation c =>
    rw [parentIn, Option.map_eq_some_iff] at hn
    obtain ⟨owner, hedge, rfl⟩ := hn
    rw [Records.parent, Records.conversations_apply_overlay hstages]
    cases hoverlay : overlay.edges.lookup c with
    | some other =>
      obtain rfl : other = owner := by simpa [Known.edge, hoverlay] using hedge
      rw [Option.some_or, Option.map_some]
    | none =>
      have hc : s.edges.lookup c = some owner := by simpa [Known.edge, hoverlay] using hedge
      rw [Option.none_or, h.edges c owner hc, Option.map_some]

theorem Sound.upIn_lt (h : s.Sound r) (hstages : overlay.Stages r)
    (hup : s.upIn overlay n = some p) : p.id < n.id :=
  (hstages.tree.parent_lt (h.parent_of_parentIn hstages (upIn_eq_some.mp hup))).2

theorem Sound.node_isSome (h : s.Sound r) (hstages : overlay.Stages r)
    (hoverlay : (overlay.tasks.lookup id).isSome = true) (hid : (r.tasks.lookup id).isSome = true) :
    s.isLive (.task id) = true := by
  obtain ⟨record, hrecord⟩ := Option.isSome_iff_exists.mp hoverlay
  obtain ⟨old, hold⟩ := Option.isSome_iff_exists.mp hid
  have hlive := (hstages.tasks _ (Assoc.mem_of_lookup hrecord) old hold).1
  exact Option.isSome_iff_exists.mpr ⟨old, (h.live id old).mpr ⟨hold, hlive⟩⟩

/-! ## Links -/

/-- A walk up for `#links` ends here: the node is listed, or has a walk of its own. -/
def stops (s : Index) (overlay : Overlay) : Node → Bool
  | .task id => s.isLive (.task id) || (overlay.tasks.lookup id).isSome
  | .conversation _ => false

theorem linkUp_succ (fuel : Nat) (links : List (Node × Node)) (c p : Node) :
    s.linkUp overlay (fuel + 1) links c p =
      if (p, c) ∈ links then links
      else if s.stops overlay p then links ++ [(p, c)]
      else match s.upIn overlay p with
        | none => links ++ [(p, c)]
        | some above =>
          if (above, p) ∈ s.below then links ++ [(p, c)]
          else s.linkUp overlay fuel (links ++ [(p, c)]) p above := by
  rw [linkUp]
  by_cases hmem : (p, c) ∈ links
  · rw [if_pos hmem, if_pos hmem]
  rw [if_neg hmem, if_neg hmem]
  cases p with
  | conversation id =>
    simp only [stops, Bool.false_eq_true, if_false, upIn, parentIn]
    cases hedge : s.edge overlay id with
    | none => rfl
    | some owner => cases owner <;> rfl
  | task id =>
    by_cases hstops : s.stops overlay (.task id) = true
    · have hor : (s.isLive (.task id) || (overlay.tasks.lookup id).isSome) = true := hstops
      simp only [hor, if_true, hstops]
    · have hor : (s.isLive (.task id) || (overlay.tasks.lookup id).isSome) = false :=
        Bool.not_eq_true _ ▸ hstops
      have hfields : s.fields overlay id = s.settled.lookup id := by
        rw [Bool.or_eq_false_iff] at hor
        have hoverlay : overlay.tasks.lookup id = none := by simpa using hor.2
        have hlive : s.live.lookup id = none := by simpa [Known.isLive] using hor.1
        simp [fields, record, hoverlay, hlive]
      simp only [hor, Bool.false_eq_true, if_false, hstops, upIn, parentIn, hfields]
      cases s.settled.lookup id <;> rfl

/-- `n` is linked to its parent, where it has to be. -/
def Covered (s : Index) (overlay : Overlay) (links : List (Node × Node)) (n : Node) : Prop :=
  s.stops overlay n = true ∨ ∀ above, s.upIn overlay n = some above → (above, n) ∈ s.below ++ links

/-- Links of the candidate tree that `#below` does not have, covered above all but `n`. -/
structure Linked (s : Index) (overlay : Overlay) (links : List (Node × Node)) (n : Node → Prop) :
    Prop where
  nodup : links.Nodup
  up : ∀ p c, (p, c) ∈ links → s.upIn overlay c = some p
  off : ∀ p c, (p, c) ∈ links → (p, c) ∉ s.below
  covered : ∀ p c, (p, c) ∈ links → ¬n p → s.Covered overlay links p

theorem Covered.mono {links more : List (Node × Node)} (h : s.Covered overlay links n) :
    s.Covered overlay (links ++ more) n := by
  refine h.imp id fun hup above habove => ?_
  rw [← List.append_assoc]
  exact List.mem_append_left _ (hup above habove)

theorem covered_of_mem {links : List (Node × Node)} {c : Node} (hup : s.upIn overlay c = some p)
    (hmem : (p, c) ∈ links) : s.Covered overlay links c := by
  refine .inr fun above habove => ?_
  obtain rfl : p = above := by simpa [hup] using habove
  exact List.mem_append_right _ hmem

theorem Linked.add {links : List (Node × Node)} {c : Node}
    (h : s.Linked overlay links (· = c)) (hup : s.upIn overlay c = some p)
    (hoff : (p, c) ∉ s.below) (hfresh : (p, c) ∉ links) :
    s.Linked overlay (links ++ [(p, c)]) (· = p) := by
  refine ⟨?_, fun q m hm => ?_, fun q m hm => ?_, fun q m hm hne => ?_⟩
  · rw [List.nodup_append]
    exact ⟨h.nodup, List.nodup_singleton _, fun a ha b hb => by
      rw [List.mem_singleton] at hb
      rintro rfl
      exact hfresh (hb ▸ ha)⟩
  · rcases List.mem_append.mp hm with hold | hnew
    · exact h.up q m hold
    · cases List.mem_singleton.mp hnew
      exact hup
  · rcases List.mem_append.mp hm with hold | hnew
    · exact h.off q m hold
    · cases List.mem_singleton.mp hnew
      exact hoff
  · by_cases hc : q = c
    · subst hc
      exact covered_of_mem hup (List.mem_append_right _ (List.mem_singleton.mpr rfl))
    · rcases List.mem_append.mp hm with hold | hnew
      · exact (h.covered q m hold hc).mono
      · cases List.mem_singleton.mp hnew
        exact absurd rfl hne

theorem Linked.all {links : List (Node × Node)} (h : s.Linked overlay links (· = n))
    (hn : s.Covered overlay links n) : s.Linked overlay links fun _ => False := by
  refine ⟨h.nodup, h.up, h.off, fun p c hp _ => ?_⟩
  by_cases hpn : p = n
  · exact hpn ▸ hn
  · exact h.covered p c hp hpn

theorem linkUp_linked (hlt : ∀ n p, s.upIn overlay n = some p → p.id < n.id) (fuel : Nat)
    {links : List (Node × Node)} {c : Node} (hfuel : p.id < fuel)
    (h : s.Linked overlay links (· = c)) (hup : s.upIn overlay c = some p)
    (hoff : (p, c) ∉ s.below) :
    s.Linked overlay (s.linkUp overlay fuel links c p) (fun _ => False) ∧
      (p, c) ∈ s.linkUp overlay fuel links c p ∧
      ∀ link ∈ links, link ∈ s.linkUp overlay fuel links c p := by
  induction fuel generalizing links c p with
  | zero => exact absurd hfuel (Nat.not_lt_zero _)
  | succ fuel ih =>
    rw [linkUp_succ]
    by_cases hmem : (p, c) ∈ links
    · rw [if_pos hmem]
      exact ⟨h.all (covered_of_mem hup hmem), hmem, fun _ hlink => hlink⟩
    rw [if_neg hmem]
    have hadd := h.add hup hoff hmem
    have hlast : (p, c) ∈ links ++ [(p, c)] := List.mem_append_right _ (List.mem_singleton.mpr rfl)
    have hkeep : ∀ link ∈ links, link ∈ links ++ [(p, c)] := fun _ => List.mem_append_left _
    by_cases hstops : s.stops overlay p = true
    · rw [if_pos hstops]
      exact ⟨hadd.all (.inl hstops), hlast, hkeep⟩
    rw [if_neg hstops]
    cases habove : s.upIn overlay p with
    | none => exact ⟨hadd.all (.inr fun _ h => by rw [habove] at h; cases h), hlast, hkeep⟩
    | some above =>
      simp only
      by_cases hbelow : (above, p) ∈ s.below
      · rw [if_pos hbelow]
        refine ⟨hadd.all (.inr fun other hother => ?_), hlast, hkeep⟩
        obtain rfl : above = other := by simpa [habove] using hother
        exact List.mem_append_left _ hbelow
      · rw [if_neg hbelow]
        have hpid := hlt p above habove
        obtain ⟨hlinked, _, hsub⟩ := ih (by omega) hadd habove hbelow
        exact ⟨hlinked, hsub _ hlast, fun link hlink => hsub _ (hkeep link hlink)⟩

/-- What `#links` does for one candidate. -/
def linkTask (s : Index) (overlay : Overlay) (links : List (Node × Node))
    (entry : TaskId × TaskRecord) : List (Node × Node) :=
  if s.isLive (.task entry.1) || (s.settled.lookup entry.1).isSome then links
  else s.linkUp overlay (entry.1 + 1) links (.task entry.1) (parentNode entry.2.toTaskNode)

theorem Sound.links_linked (h : s.Sound r) (hstages : overlay.Stages r) :
    s.Linked overlay (s.links overlay) (fun _ => False) ∧
      ∀ id record, overlay.tasks.lookup id = some record → s.node id = none →
        (parentNode record.toTaskNode, .task id) ∈ s.links overlay := by
  have hlt : ∀ n p, s.upIn overlay n = some p → p.id < n.id := fun _ _ => h.upIn_lt hstages
  -- over any part of the entries, from links that are covered
  have hloop : ∀ (entries : List (TaskId × TaskRecord)) (links : List (Node × Node)),
      (∀ entry ∈ entries, overlay.tasks.lookup entry.1 = some entry.2) →
      s.Linked overlay links (fun _ => False) →
      s.Linked overlay (entries.foldl (s.linkTask overlay) links) (fun _ => False) ∧
      (∀ link ∈ links, link ∈ entries.foldl (s.linkTask overlay) links) ∧
      ∀ entry ∈ entries, s.node entry.1 = none →
        (parentNode entry.2.toTaskNode, .task entry.1) ∈
          entries.foldl (s.linkTask overlay) links := by
    intro entries
    induction entries with
    | nil => exact fun links _ hlinked => ⟨hlinked, fun _ hlink => hlink, by simp⟩
    | cons entry entries ih =>
      intro links hentries hlinked
      rw [List.foldl_cons, linkTask]
      have hrest := fun e he => hentries e (List.mem_cons_of_mem _ he)
      have hself := hentries entry List.mem_cons_self
      by_cases hknown : (s.isLive (.task entry.1) || (s.settled.lookup entry.1).isSome) = true
      · rw [if_pos hknown]
        obtain ⟨hall, hkeep, hnew⟩ := ih links hrest hlinked
        refine ⟨hall, hkeep, fun e he hnone => ?_⟩
        rcases List.mem_cons.mp he with rfl | he
        · -- a known task has a node
          rw [Known.node] at hnone
          cases hlive : s.live.lookup e.1 with
          | some record => simp [hlive] at hnone
          | none =>
            simp only [hlive] at hnone
            simp [Known.isLive, hlive, hnone] at hknown
        · exact hnew e he hnone
      · rw [if_neg hknown]
        have hup : s.upIn overlay (.task entry.1) = some (parentNode entry.2.toTaskNode) := by
          rw [upIn_eq_some, parentIn, fields, record, hself]
          rfl
        have hnone : s.node entry.1 = none := by
          simp only [Bool.or_eq_true, not_or, Bool.not_eq_true, Known.isLive,
            Option.isSome_eq_false_iff, Option.isNone_iff_eq_none] at hknown
          rw [Known.node, hknown.1]
          exact hknown.2
        have hoff : (parentNode entry.2.toTaskNode, Node.task entry.1) ∉ s.below := by
          intro hmem
          have hparent := ((h.exact.listed _).below _).mp hmem
          simp [Known.parent, hnone] at hparent
        have hbefore : s.Linked overlay links (· = Node.task entry.1) :=
          ⟨hlinked.nodup, hlinked.up, hlinked.off, fun p c hp _ => hlinked.covered p c hp id⟩
        have hpid := hlt _ _ hup
        obtain ⟨hlinked', hmem, hsub⟩ :=
          linkUp_linked hlt (entry.1 + 1) (Nat.lt_succ_of_lt hpid) hbefore hup hoff
        obtain ⟨hall, hkeep, hnew⟩ := ih _ hrest hlinked'
        refine ⟨hall, fun link hlink => hkeep _ (hsub link hlink), fun e he hnone => ?_⟩
        rcases List.mem_cons.mp he with rfl | he
        · exact hkeep _ hmem
        · exact hnew e he hnone
  have hnil : s.Linked overlay [] fun _ => False :=
    ⟨List.nodup_nil, by simp, by simp, by simp⟩
  obtain ⟨hlinked, _, hnew⟩ := hloop overlay.tasks []
    (fun entry hentry => Assoc.lookup_of_mem hstages.keys hentry) hnil
  exact ⟨hlinked, fun id record hid hnone => hnew _ (Assoc.mem_of_lookup hid) hnone⟩

/-! ## The forest of a walk -/

def neededIn (s : Index) (overlay : Overlay) (n : Node) : Prop :=
  s.needed n = true ∨ (∃ c, (n, c) ∈ s.links overlay) ∨ ∃ id, n = .task id ∧ s.isNew overlay id

theorem Sound.parent_of_needed (h : s.Sound r) (htree : r.IsTree) (hn : s.needed n = true) :
    (r.parent n).isSome = true := by
  rw [needed, Bool.or_eq_true] at hn
  rcases hn with hlive | hbelow
  · cases n with
    | conversation c => cases hlive
    | task id =>
      obtain ⟨record, hrecord⟩ := Option.isSome_iff_exists.mp hlive
      rw [Records.parent, ((h.live id record).mp hrecord).1]
      rfl
  · obtain ⟨c, hc⟩ := hasBelow_iff.mp hbelow
    exact (htree.parent_lt (h.parent (((h.exact.listed c).below n).mp hc).1)).1

theorem Sound.parentIn_eq (h : s.Sound r) (hstages : overlay.Stages r)
    (hn : (r.parent n).isSome = true) : s.parentIn overlay n = s.parent n := by
  cases hparent : s.parent n with
  | some e => exact h.parentIn_of_parent hstages hparent
  | none =>
    cases n with
    | conversation c =>
      rw [Known.parent, Option.map_eq_none_iff] at hparent
      have hnone : overlay.edges.lookup c = none := by
        cases hoverlay : overlay.edges.lookup c with
        | none => rfl
        | some other =>
          have hfree := hstages.edges _ (Assoc.mem_of_lookup hoverlay)
          simp [Records.parent, hfree] at hn
      rw [parentIn, Known.edge, hnone, hparent, Option.map_none]
    | task id =>
      rw [Known.parent, Option.map_eq_none_iff] at hparent
      have hnone : overlay.tasks.lookup id = none := by
        cases hoverlay : overlay.tasks.lookup id with
        | none => rfl
        | some record =>
          rw [Records.parent, Option.isSome_map] at hn
          have hlive := h.node_isSome hstages (by rw [hoverlay]; rfl) hn
          obtain ⟨old, hold⟩ := Option.isSome_iff_exists.mp hlive
          simp [Known.node, hold] at hparent
      rw [parentIn, fields, record, hnone]
      rw [Known.node] at hparent
      rw [hparent, Option.map_none]

theorem Sound.mem_walked (h : s.Sound r) (htree : r.IsTree) (hstages : overlay.Stages r)
    (hn : s.neededIn overlay n) (hup : s.upIn overlay n = some p) :
    (p, n) ∈ s.below ++ s.links overlay := by
  obtain ⟨hlinked, hnew⟩ := h.links_linked hstages
  have hlisted : s.needed n = true → (p, n) ∈ s.below ++ s.links overlay := by
    intro hneeded
    rw [upIn_eq_some, h.parentIn_eq hstages (h.parent_of_needed htree hneeded)] at hup
    exact List.mem_append_left _ (((h.exact.listed n).below p).mpr ⟨hup, hneeded⟩)
  have hcreated : ∀ id, n = .task id → s.isNew overlay id →
      (p, n) ∈ s.below ++ s.links overlay := by
    rintro id rfl ⟨hoverlay, hnone⟩
    obtain ⟨record, hrecord⟩ := Option.isSome_iff_exists.mp hoverlay
    have hp : parentNode record.toTaskNode = p := by
      rw [upIn_eq_some, parentIn, fields, Index.record, hrecord] at hup
      simpa using hup
    exact List.mem_append_right _ (hp ▸ hnew id record hrecord hnone)
  rcases hn with hneeded | ⟨c, hc⟩ | ⟨id, hid, hisNew⟩
  · exact hlisted hneeded
  · -- a node above a link is covered: linked itself, live, or a candidate
    rcases hlinked.covered n c hc id with hstops | hcovered
    · cases n with
      | conversation _ => cases hstops
      | task id =>
        rw [stops, Bool.or_eq_true] at hstops
        by_cases hlive : s.isLive (.task id) = true
        · exact hlisted (needed_of_isLive hlive)
        · have hoverlay := hstops.resolve_left hlive
          cases hnode : s.node id with
          | none => exact hcreated id rfl ⟨hoverlay, hnode⟩
          | some node =>
            obtain ⟨record, hrecord, _⟩ := h.node hnode
            exact absurd (h.node_isSome hstages hoverlay (by rw [hrecord]; rfl)) hlive
    · exact hcovered p hup
  · exact hcreated id hid hisNew

theorem Sound.upIn_of_mem (h : s.Sound r) (hstages : overlay.Stages r)
    (hmem : (p, n) ∈ s.below ++ s.links overlay) : s.upIn overlay n = some p := by
  rcases List.mem_append.mp hmem with hbelow | hlink
  · rw [upIn_eq_some]
    exact h.parentIn_of_parent hstages (((h.exact.listed n).below p).mp hbelow).1
  · exact (h.links_linked hstages).1.up p n hlink

theorem Sound.neededIn_of_mem (hmem : (p, n) ∈ s.below ++ s.links overlay) :
    s.neededIn overlay p := by
  rcases List.mem_append.mp hmem with hbelow | hlink
  · left
    rw [needed, hasBelow_iff.mpr ⟨n, hbelow⟩, Bool.or_true]
  · exact .inr (.inl ⟨n, hlink⟩)

theorem Sound.isForest (h : s.Sound r) (hstages : overlay.Stages r) :
    Forest.IsForest (s.below ++ s.links overlay) Node.id := by
  obtain ⟨hlinked, _⟩ := h.links_linked hstages
  refine ⟨?_, fun p q c hp hq => ?_, fun p c hp => h.upIn_lt hstages (h.upIn_of_mem hstages hp)⟩
  · rw [List.nodup_append]
    refine ⟨h.exact.nodup, hlinked.nodup, ?_⟩
    rintro a ha b hb rfl
    exact hlinked.off a.1 a.2 hb ha
  · have heq := (h.upIn_of_mem hstages hp).symm.trans (h.upIn_of_mem hstages hq)
    simpa using heq

/-! ## The walk -/

theorem yield_task {n : Node} {y : Yield} (h : s.yield overlay n = some y) :
    n = .task y.id ∧ s.fields overlay y.id = some y.node ∧ y.live = s.liveIn overlay y.id := by
  cases n with
  | conversation c => cases h
  | task id =>
    rw [yield, Option.map_eq_some_iff] at h
    obtain ⟨node, hnode, rfl⟩ := h
    exact ⟨rfl, hnode, rfl⟩

theorem liveIn_fields {record : TaskRecord} (h : s.liveIn overlay id = some record) :
    s.fields overlay id = some record.toTaskNode := by
  rw [liveIn, Option.filter_eq_some_iff] at h
  rw [fields, h.1]

/-- **A walk down** over the candidates ends, yields no task twice, and yields the live candidates
from which the way up, as far as it is known, comes to its start. -/
theorem Sound.walkDown (h : s.Sound r) (htree : r.IsTree) (hstages : overlay.Stages r)
    (crossBackground : Bool) (enter : TaskId → Bool) (start : Node) :
    ∃ yields, (∀ fuel, (s.below ++ s.links overlay).length < fuel →
        s.walkDown overlay crossBackground enter fuel start = some yields) ∧
      (yields.map (·.id)).Nodup ∧
      (∀ y ∈ yields, s.fields overlay y.id = some y.node ∧ y.live = s.liveIn overlay y.id) ∧
      ∀ id, (∃ y ∈ yields, y.id = id ∧ y.live.isSome = true) ↔
        (s.liveIn overlay id).isSome = true ∧ Forest.Climbs (s.upIn overlay)
          (s.enters overlay crossBackground enter) (.task id) start := by
  obtain ⟨nodes, hwalk, hnodup, hmem⟩ :=
    Forest.walk_exact (h.isForest hstages) (s.enters overlay crossBackground enter) start
  have hyield : ∀ y ∈ nodes.filterMap (s.yield overlay), .task y.id ∈ nodes ∧
      s.fields overlay y.id = some y.node ∧ y.live = s.liveIn overlay y.id := by
    intro y hy
    obtain ⟨n, hn, hyn⟩ := List.mem_filterMap.mp hy
    obtain ⟨rfl, hfields, hlive⟩ := yield_task hyn
    exact ⟨hn, hfields, hlive⟩
  refine ⟨nodes.filterMap (s.yield overlay), fun fuel hfuel => ?_, ?_,
    fun y hy => (hyield y hy).2, fun id => ?_⟩
  · rw [Index.walkDown, hwalk fuel hfuel, Option.map_some]
  · rw [List.map_filterMap]
    refine hnodup.filterMap fun a b id ha hb => ?_
    obtain ⟨y, hy, rfl⟩ := Option.map_eq_some_iff.mp ha
    obtain ⟨z, hz, hid⟩ := Option.map_eq_some_iff.mp hb
    rw [(yield_task hy).1, (yield_task hz).1, hid]
  · constructor
    · rintro ⟨y, hy, rfl, hsome⟩
      obtain ⟨hnode, _, hlive⟩ := hyield y hy
      obtain ⟨n, hentered, hlink⟩ := (hmem _).mp hnode
      exact ⟨hlive ▸ hsome,
        hentered.climbs (fun _ _ hl => h.upIn_of_mem hstages hl) hlink⟩
    · rintro ⟨hsome, hclimbs⟩
      obtain ⟨record, hrecord⟩ := Option.isSome_iff_exists.mp hsome
      have hfields := liveIn_fields hrecord
      -- a live candidate is listed, or the commit creates it
      have hneeded : s.neededIn overlay (.task id) := by
        cases hnode : s.node id with
        | none =>
          refine .inr (.inr ⟨id, rfl, ?_, hnode⟩)
          rw [liveIn, Option.filter_eq_some_iff, Index.record] at hrecord
          cases hoverlay : overlay.tasks.lookup id with
          | some _ => rfl
          | none =>
            rw [Known.node] at hnode
            simp only [hoverlay] at hrecord
            simp [hrecord.1] at hnode
        | some node =>
          left
          apply needed_of_isLive
          rw [liveIn, Option.filter_eq_some_iff, Index.record] at hrecord
          obtain ⟨old, hold, _⟩ := h.node hnode
          cases hoverlay : overlay.tasks.lookup id with
          | some _ => exact h.node_isSome hstages (by rw [hoverlay]; rfl) (by rw [hold]; rfl)
          | none =>
            simp only [hoverlay] at hrecord
            exact Option.isSome_iff_exists.mpr ⟨record, hrecord.1⟩
      obtain ⟨n, hentered, hlink⟩ :=
        hclimbs.entered
          (fun _ m hup (hn : s.neededIn overlay m) => h.mem_walked htree hstages hn hup)
          (fun _ _ hup hn => Sound.neededIn_of_mem (h.mem_walked htree hstages hn hup)) hneeded
      refine ⟨⟨id, record.toTaskNode, some record⟩, List.mem_filterMap.mpr
        ⟨.task id, (hmem _).mpr ⟨n, hentered, hlink⟩, ?_⟩, rfl, rfl⟩
      rw [yield, hfields, Option.map_some]
      show some (Yield.mk id record.toTaskNode (s.liveIn overlay id)) = _
      rw [hrecord]

end Index

/-! ## Ordinary owned work -/

namespace Records

def live (r : Records) (id : TaskId) : Option TaskRecord :=
  (r.tasks.lookup id).filter fun record => !record.state.isTerminal

/-- `y` is live ordinary owned work of `x`: it is not in the background, and the way up from it
comes to `x` past no background task. -/
def Owns (r : Records) (x y : TaskId) : Prop :=
  (∃ record ∈ r.live y, record.background = false) ∧
    Forest.Climbs r.up (r.enters false) (.task y) (.task x)

end Records

namespace Index

variable {s : Index} {r : Records} {overlay : Overlay} {n m p : Node} {id x y : TaskId}

/-- Live ordinary owned work, as far as the candidate tree is known. -/
def OwnsIn (s : Index) (overlay : Overlay) (x y : TaskId) : Prop :=
  (∃ record ∈ s.liveIn overlay y, record.background = false) ∧
    Forest.Climbs (s.upIn overlay) (s.enters overlay false fun _ => true) (.task y) (.task x)

/-- The candidate way up from `n` is known to its end. -/
inductive KnownUp (s : Index) (overlay : Overlay) : Node → Prop where
  | root {n : Node} (h : s.parentIn overlay n = some none) : KnownUp s overlay n
  | step {n p : Node} (h : s.parentIn overlay n = some (some p)) (hup : KnownUp s overlay p) :
    KnownUp s overlay n

theorem Sound.liveIn_eq (h : s.Sound r) (hstages : overlay.Stages r) (id : TaskId) :
    s.liveIn overlay id = (r.apply overlay.changes).live id := by
  rw [liveIn, Index.record, Records.live, Records.tasks_apply_overlay hstages]
  cases overlay.tasks.lookup id with
  | some record => rfl
  | none =>
    rw [Option.none_or]
    simp only
    cases hlive : s.live.lookup id with
    | some record =>
      obtain ⟨hrecord, hterminal⟩ := (h.live id record).mp hlive
      rw [hrecord]
    | none =>
      cases hrecord : r.tasks.lookup id with
      | none => rfl
      | some record =>
        have hterminal : record.state.isTerminal = true := by
          by_contra hnot
          have hsome := (h.live id record).mpr ⟨hrecord, by simpa using hnot⟩
          rw [hlive] at hsome
          cases hsome
        rw [Option.filter_none, Option.filter_some, hterminal]
        rfl

theorem Sound.enters_eq (h : s.Sound r) (hstages : overlay.Stages r) (crossBackground : Bool)
    (hn : (s.parentIn overlay n).isSome = true) :
    (r.apply overlay.changes).enters crossBackground n
      = s.enters overlay crossBackground (fun _ => true) n := by
  cases n with
  | conversation c => rfl
  | task id =>
    obtain ⟨e, he⟩ := Option.isSome_iff_exists.mp hn
    have hparent := h.parent_of_parentIn hstages he
    rw [parentIn, Option.map_eq_some_iff] at he
    obtain ⟨node, hfields, rfl⟩ := he
    rw [Records.parent, Option.map_eq_some_iff] at hparent
    obtain ⟨record, hrecord, _⟩ := hparent
    have hnode : record.toTaskNode = node := by
      rw [Records.tasks_apply_overlay hstages] at hrecord
      cases hoverlay : overlay.tasks.lookup id with
      | some new =>
        obtain rfl : new = record := by simpa [hoverlay] using hrecord
        simpa [fields, Index.record, hoverlay] using hfields
      | none =>
        rw [hoverlay, Option.none_or] at hrecord
        have hknown : s.node id = some node := by
          rw [← hfields, fields, Index.record, hoverlay, Known.node]
        obtain ⟨old, hold, rfl⟩ := h.node hknown
        obtain rfl : old = record := by simpa [hold] using hrecord
        rfl
    simp [Records.enters, enters, hrecord, hfields, ← hnode]

theorem KnownUp.isSome (h : s.KnownUp overlay n) : (s.parentIn overlay n).isSome = true := by
  cases h with
  | root h => rw [h]; rfl
  | step h _ => rw [h]; rfl

/-- Along a known way up, walks down find what hangs there in the candidate tables. -/
theorem Sound.climbs_iff (h : s.Sound r) (hstages : overlay.Stages r) (crossBackground : Bool)
    {start : Node} (hn : s.KnownUp overlay n) :
    Forest.Climbs (s.upIn overlay) (s.enters overlay crossBackground fun _ => true) n start ↔
      Forest.Climbs (r.apply overlay.changes).up
        ((r.apply overlay.changes).enters crossBackground) n start := by
  refine Forest.climbs_congr (fun n (hn : s.KnownUp overlay n) => ?_) hn
  refine ⟨?_, h.enters_eq hstages crossBackground hn.isSome, fun p hup => ?_⟩
  · obtain ⟨e, he⟩ := Option.isSome_iff_exists.mp hn.isSome
    rw [Records.up, upIn, he, h.parent_of_parentIn hstages he]
  · rw [upIn_eq_some] at hup
    cases hn with
    | root hroot => rw [hroot] at hup; cases hup
    | @step _ p' hstep hup' =>
      obtain rfl : p' = p := by simpa [hstep] using hup
      exact hup'

theorem Sound.ownsIn_iff (h : s.Sound r) (hstages : overlay.Stages r)
    (hy : s.KnownUp overlay (.task y)) :
    s.OwnsIn overlay x y ↔ (r.apply overlay.changes).Owns x y := by
  rw [OwnsIn, Records.Owns, h.liveIn_eq hstages, h.climbs_iff hstages false hy]

theorem Sound.climbs_of_climbsIn (h : s.Sound r) (hstages : overlay.Stages r)
    {crossBackground : Bool}
    (hclimbs : Forest.Climbs (s.upIn overlay) (s.enters overlay crossBackground fun _ => true) n m) :
    Forest.Climbs (r.apply overlay.changes).up ((r.apply overlay.changes).enters crossBackground)
      n m := by
  have hup : ∀ {n p : Node}, s.upIn overlay n = some p →
      (r.apply overlay.changes).up n = some p := by
    intro n p hn
    rw [Records.up, h.parent_of_parentIn hstages (upIn_eq_some.mp hn)]
    rfl
  induction hclimbs with
  | base hn => exact .base (hup hn)
  | @step n p top hn henter hrest ih =>
    refine .step (hup hn) ?_ ih
    obtain ⟨q, hq⟩ := hrest.exists_parent
    rw [h.enters_eq hstages crossBackground (by rw [upIn_eq_some.mp hq]; rfl)]
    exact henter

theorem Sound.owns_of_ownsIn (h : s.Sound r) (hstages : overlay.Stages r)
    (hy : s.OwnsIn overlay x y) : (r.apply overlay.changes).Owns x y :=
  ⟨h.liveIn_eq hstages y ▸ hy.1, h.climbs_of_climbsIn hstages hy.2⟩

end Index

end ThreeXhaust.Harness
