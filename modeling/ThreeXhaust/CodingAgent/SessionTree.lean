import ThreeXhaust.CodingAgent.SessionManager
import ThreeXhaust.Lib.Descent

/-!
# Walks over the entries of a session

Nothing checks the entries of a session file: ids may repeat, and a parent may be missing, the
entry itself, or one of those below it. `buildSessionPath` and `getBranch` go up from an entry as
long as there is a parent; `getTree` goes down from the roots and sorts what is below a node.
-/

namespace ThreeXhaust.CodingAgent

open Json Relation

def parentOf (e : FileEntry) : Option String := textOf e "parentId"

/-! ## Up -/

def buildEntryIndex (entries : List FileEntry) (byId : Option (List (String × FileEntry))) :
    List (String × FileEntry) :=
  byId.getD (entries.foldl (fun index entry => Assoc.set index (idOf entry) entry) [])

def find (index : List (String × FileEntry)) (id : Option String) : Option FileEntry :=
  (id.filter (· ≠ "")).bind (index.lookup ·)

/-- The loop of both walks: an entry, its parent, and so on, each in front of the path. -/
def walkUp (index : List (String × FileEntry)) (fuel : Nat) (leaf : Option FileEntry) :
    Option (List FileEntry) :=
  Descent.run (fun path e => (e :: path, (find index (parentOf e)).toList)) fuel [] leaf.toList

/-- `buildSessionPath`, where `leafId` may be undefined, null or text. -/
def buildSessionPath (fuel : Nat) (entries : List FileEntry) (leafId : Option (Option String))
    (byId : Option (List (String × FileEntry))) : Option (List FileEntry) :=
  let index := buildEntryIndex entries byId
  if leafId = some none then some []
  else walkUp index fuel ((find index leafId.join).or entries.getLast?)

def Manager.getBranch (m : Manager) (fuel : Nat) (fromId : Option String) :
    Option (List FileEntry) :=
  walkUp m.byId fuel (find m.byId (fromId.or m.leafId))

/-! ## Down -/

structure SessionTreeNode where
  entry : FileEntry
  children : List String
  label : Option String
  labelTimestamp : Option String

structure Tree where
  nodeMap : List (String × SessionTreeNode)
  roots : List String

def Manager.getEntries (m : Manager) : List FileEntry := m.fileEntries.filter (!isSession ·)

def Manager.nodeMap (m : Manager) : List (String × SessionTreeNode) :=
  m.getEntries.foldl (fun nodes e => Assoc.set nodes (idOf e)
    ⟨e, [], m.labelsById.lookup (idOf e), m.labelTimestampsById.lookup (idOf e)⟩) []

/-- An entry's node becomes a root, or a child of its parent's. -/
def Tree.place (t : Tree) (e : FileEntry) : Tree :=
  match (parentOf e).filter (· ≠ idOf e) with
  | none => { t with roots := t.roots ++ [idOf e] }
  | some p =>
    match t.nodeMap.lookup p with
    | none => { t with roots := t.roots ++ [idOf e] }
    | some parent => { t with
        nodeMap := Assoc.set t.nodeMap p { parent with children := parent.children ++ [idOf e] } }

/-- The comparison of two children; a time that is not a number leaves them as they are. -/
def notLater (time : Option String → Option Int) (nodes : List (String × SessionTreeNode))
    (a b : String) : Bool :=
  let timeOf (id : String) := time ((nodes.lookup id).bind (textOf ·.entry "timestamp"))
  match timeOf a, timeOf b with
  | some x, some y => decide (x ≤ y)
  | _, _ => true

def sortChildren (time : Option String → Option Int) (nodes : List (String × SessionTreeNode))
    (id : String) : List (String × SessionTreeNode) × List String :=
  match nodes.lookup id with
  | none => (nodes, [])
  | some node =>
    let children := node.children.mergeSort (notLater time nodes)
    (Assoc.set nodes id { node with children }, children.reverse)

/-- `getTree`; `time` is the number that `Date` makes of a timestamp. -/
def Manager.getTree (m : Manager) (time : Option String → Option Int) (fuel : Nat) : Option Tree :=
  let t := m.getEntries.foldl Tree.place ⟨m.nodeMap, []⟩
  (Descent.run (sortChildren time) fuel t.nodeMap t.roots.reverse).map fun nodeMap =>
    { t with nodeMap }

/-! ## What loading asks for -/

structure Loads (time : Option String → Option Int) (m : Manager) : Prop where
  path : ∀ leafId, ∀ byId ∈ [none, some m.byId],
    ∃ fuel, (buildSessionPath fuel m.getEntries leafId byId).isSome
  branch : ∀ leafId fromId, ∃ fuel, ({ m with leafId }.getBranch fuel fromId).isSome
  tree : ∃ fuel, (m.getTree time fuel).isSome

/-- `p` is the parent of `e`: the last entry with its `parentId`. -/
def IsParent (index : List (String × FileEntry)) (p e : FileEntry) : Prop :=
  find index (parentOf e) = some p

/-- Some entry with the id `c` has another id of the session for its parent. -/
def IsChild (entries : List FileEntry) (c p : String) : Prop :=
  ∃ e ∈ entries, idOf e = c ∧ parentOf e = some p ∧ p ≠ c ∧ p ∈ entries.map idOf

/-- Some entry with the id `r` has no parent, or none in the session but itself. -/
def IsRoot (entries : List FileEntry) (r : String) : Prop :=
  ∃ e ∈ entries, idOf e = r ∧ ∀ p, parentOf e = some p → p = r ∨ p ∉ entries.map idOf

/-- No entry is its own ancestor, and no root is above an id that is above itself. -/
structure Rooted (m : Manager) : Prop where
  up : ∀ e, ¬ TransGen (IsParent m.byId) e e
  down : ∀ r, IsRoot m.getEntries r → ∀ c, ReflTransGen (IsChild m.getEntries) c r →
    ¬ TransGen (IsChild m.getEntries) c c

/-! ## The walks up -/

section Up

variable {index : List (String × FileEntry)}

theorem find_eq_some {id : Option String} {e : FileEntry} (h : find index id = some e) :
    ∃ s, s ≠ "" ∧ id = some s ∧ index.lookup s = some e := by
  obtain ⟨s, hs, he⟩ := Option.bind_eq_some_iff.mp h
  obtain ⟨hid, hne⟩ := Option.filter_eq_some_iff.mp hs
  exact ⟨s, by simpa using hne, hid, he⟩

theorem finite_isParent : {p | ∃ e, IsParent index p e}.Finite := by
  refine (List.finite_toSet (index.map (·.2))).subset ?_
  rintro p ⟨e, he⟩
  obtain ⟨s, -, -, hp⟩ := find_eq_some he
  exact List.mem_map.mpr ⟨_, Assoc.mem_of_lookup hp, rfl⟩

theorem walkUp_ends_iff {leaf : Option FileEntry} : (∃ fuel, (walkUp index fuel leaf).isSome) ↔
    ∀ e ∈ leaf, ∀ a, ReflTransGen (IsParent index) a e → ¬ TransGen (IsParent index) a a := by
  have hends : (∃ fuel, (walkUp index fuel leaf).isSome) ↔
      ∀ e ∈ leaf.toList, Acc (IsParent index) e :=
    Descent.ends_iff_acc (P := fun _ => True)
      (fun _ e _ => ⟨trivial, fun c => by simp [IsParent]⟩) trivial
  simp only [Descent.acc_iff finite_isParent, Option.mem_toList] at hends
  exact hends

theorem find_of_isParent {a : FileEntry} (h : TransGen (IsParent index) a a) :
    ∃ s, s ≠ "" ∧ find index (some s) = some a := by
  obtain ⟨e, he, -⟩ := TransGen.head'_iff.mp h
  obtain ⟨s, hne, -, hs⟩ := find_eq_some he
  exact ⟨s, hne, by rw [find, Option.filter_some, if_pos (by simpa using hne)]; exact hs⟩

end Up

/-! ## The walk down -/

section Down

variable {entries : List FileEntry} {time : Option String → Option Int}

/-- `c` is a child in the map. -/
def Lists (nodes : List (String × SessionTreeNode)) (c p : String) : Prop :=
  ∃ node, nodes.lookup p = some node ∧ c ∈ node.children

theorem lists_set {nodes : List (String × SessionTreeNode)} {id c p : String}
    {node : SessionTreeNode} : Lists (Assoc.set nodes id node) c p ↔
      if p = id then c ∈ node.children else Lists nodes c p := by
  unfold Lists
  rw [Assoc.lookup_set]
  split
  · simp
  · rfl

variable (entries) in
theorem place_spec (ids : List String) (t : Tree)
    (hids : ∀ id, (t.nodeMap.lookup id).isSome ↔ id ∈ ids) :
    let placed := entries.foldl Tree.place t
    (∀ id, (placed.nodeMap.lookup id).isSome ↔ id ∈ ids) ∧
      (∀ c p, Lists placed.nodeMap c p ↔ Lists t.nodeMap c p ∨
        ∃ e ∈ entries, idOf e = c ∧ parentOf e = some p ∧ p ≠ c ∧ p ∈ ids) ∧
      ∀ r, r ∈ placed.roots ↔ r ∈ t.roots ∨
        ∃ e ∈ entries, idOf e = r ∧ ∀ p, parentOf e = some p → p = r ∨ p ∉ ids := by
  induction entries generalizing t with
  | nil => simp [hids]
  | cons e entries ih =>
    have hplace : (∀ id, ((t.place e).nodeMap.lookup id).isSome ↔ id ∈ ids) ∧
        (∀ c p, Lists (t.place e).nodeMap c p ↔ Lists t.nodeMap c p ∨
          idOf e = c ∧ parentOf e = some p ∧ p ≠ c ∧ p ∈ ids) ∧
        ∀ r, r ∈ (t.place e).roots ↔ r ∈ t.roots ∨
          idOf e = r ∧ ∀ p, parentOf e = some p → p = r ∨ p ∉ ids := by
      by_cases hroot : ∀ p, parentOf e = some p → p = idOf e ∨ p ∉ ids
      · have hplaced : t.place e = { t with roots := t.roots ++ [idOf e] } := by
          unfold Tree.place
          split
          · rfl
          · next p hp =>
            obtain ⟨hp, hne⟩ := Option.filter_eq_some_iff.mp hp
            have hmissing := (hroot p hp).resolve_left (by simpa using hne)
            rw [Option.not_isSome_iff_eq_none.mp fun h => hmissing ((hids p).mp h)]
        rw [hplaced]
        refine ⟨hids, fun c p => ⟨.inl, ?_⟩, fun r => ?_⟩
        · rintro (h | ⟨rfl, hp, hne, hmem⟩)
          · exact h
          · exact ((hroot p hp).elim hne (absurd hmem)).elim
        · rw [List.mem_append, List.mem_singleton]
          refine or_congr_right ⟨?_, fun h => h.1.symm⟩
          rintro rfl
          exact ⟨rfl, hroot⟩
      · push Not at hroot
        obtain ⟨p, hp, hne, hmem⟩ := hroot
        obtain ⟨parent, hparent⟩ := Option.isSome_iff_exists.mp ((hids p).mpr hmem)
        have hplaced : t.place e = ⟨Assoc.set t.nodeMap p
            { parent with children := parent.children ++ [idOf e] }, t.roots⟩ := by
          simp [Tree.place, hp, Option.filter_some, hne, hparent]
        rw [hplaced]
        refine ⟨fun id => ?_, fun c q => ?_, fun r => ⟨.inl, ?_⟩⟩
        · rw [Assoc.lookup_set]
          split
          · next heq => simpa [heq] using hmem
          · exact hids id
        · rw [lists_set]
          split
          · next heq =>
            subst heq
            have hlists : Lists t.nodeMap c q ↔ c ∈ parent.children := by simp [Lists, hparent]
            rw [hlists, List.mem_append, List.mem_singleton]
            refine or_congr_right ⟨?_, fun h => h.1.symm⟩
            rintro rfl
            exact ⟨rfl, hp, hne, hmem⟩
          · next hq =>
            simp [hp, Ne.symm hq]
        · rintro (h | ⟨rfl, h⟩)
          · exact h
          · exact ((h p hp).elim hne (absurd hmem)).elim
    obtain ⟨hids', hlists, hroots⟩ := hplace
    obtain ⟨hids'', hlists', hroots'⟩ := ih _ hids'
    refine ⟨hids'', fun c p => ?_, fun r => ?_⟩
    · rw [List.foldl_cons, hlists', hlists, or_assoc, List.exists_mem_cons_iff]
    · rw [List.foldl_cons, hroots', hroots, or_assoc, List.exists_mem_cons_iff]

variable (entries) in
theorem nodeMap_spec (node : FileEntry → SessionTreeNode) (hnode : ∀ e, (node e).children = [])
    (nodes : List (String × SessionTreeNode)) (hnodes : ∀ c p, ¬ Lists nodes c p) :
    let map := entries.foldl (fun nodes e => Assoc.set nodes (idOf e) (node e)) nodes
    (∀ id, (map.lookup id).isSome ↔ (nodes.lookup id).isSome ∨ id ∈ entries.map idOf) ∧
      ∀ c p, ¬ Lists map c p := by
  induction entries generalizing nodes with
  | nil => exact ⟨by simp, hnodes⟩
  | cons e entries ih =>
    have hset : ∀ c p, ¬ Lists (Assoc.set nodes (idOf e) (node e)) c p := by
      intro c p
      rw [lists_set]
      split
      · simp [hnode]
      · exact hnodes c p
    obtain ⟨hids, hlists⟩ := ih _ hset
    refine ⟨fun id => ?_, hlists⟩
    rw [List.foldl_cons, hids, Assoc.lookup_set, List.map_cons, List.mem_cons]
    by_cases hid : id = idOf e
    · simp [hid]
    · simp [hid]

theorem sortChildren_spec {nodes : List (String × SessionTreeNode)} {id : String}
    (h : ∀ c p, Lists nodes c p ↔ IsChild entries c p) :
    (∀ c p, Lists (sortChildren time nodes id).1 c p ↔ IsChild entries c p) ∧
      ∀ c, c ∈ (sortChildren time nodes id).2 ↔ IsChild entries c id := by
  cases hnode : nodes.lookup id with
  | none =>
    have hsort : sortChildren time nodes id = (nodes, []) := by simp [sortChildren, hnode]
    rw [hsort]
    exact ⟨h, fun c => by simp [← h, Lists, hnode]⟩
  | some node =>
    have hsort : sortChildren time nodes id = (Assoc.set nodes id
        { node with children := node.children.mergeSort (notLater time nodes) },
        (node.children.mergeSort (notLater time nodes)).reverse) := by simp [sortChildren, hnode]
    have hmem : ∀ c, c ∈ node.children ↔ IsChild entries c id := by
      intro c
      simp [← h, Lists, hnode]
    rw [hsort]
    refine ⟨fun c p => ?_, fun c => by simp [hmem]⟩
    rw [lists_set]
    split
    · next heq => simp [heq, hmem]
    · exact h c p

theorem finite_isChild : {c | ∃ p, IsChild entries c p}.Finite := by
  refine (List.finite_toSet (entries.map idOf)).subset ?_
  rintro c ⟨p, e, he, rfl, -⟩
  exact List.mem_map_of_mem he

theorem getTree_ends_iff {m : Manager} : (∃ fuel, (m.getTree time fuel).isSome) ↔
    ∀ r, IsRoot m.getEntries r → ∀ c, ReflTransGen (IsChild m.getEntries) c r →
      ¬ TransGen (IsChild m.getEntries) c c := by
  obtain ⟨hids, hchildless⟩ := nodeMap_spec m.getEntries
    (fun e => ⟨e, [], m.labelsById.lookup (idOf e), m.labelTimestampsById.lookup (idOf e)⟩)
    (fun _ => rfl) [] (by simp [Lists])
  obtain ⟨-, hlists, hroots⟩ := place_spec m.getEntries (m.getEntries.map idOf)
    ⟨m.nodeMap, []⟩ (fun id => (hids id).trans (by simp))
  let t := m.getEntries.foldl Tree.place ⟨m.nodeMap, []⟩
  have hends : Descent.Ends (sortChildren time) t.nodeMap t.roots.reverse ↔
      ∀ r ∈ t.roots.reverse, Acc (IsChild m.getEntries) r := by
    refine Descent.ends_iff_acc (P := fun nodes => ∀ c p, Lists nodes c p ↔ IsChild m.getEntries c p)
      (fun _ _ h => ?_) fun c p => (hlists c p).trans (or_iff_right (hchildless c p))
    exact sortChildren_spec h
  have hroot : ∀ r, r ∈ t.roots ↔ IsRoot m.getEntries r :=
    fun r => (hroots r).trans (or_iff_right List.not_mem_nil)
  simp only [Descent.acc_iff finite_isChild, List.mem_reverse, hroot] at hends
  rw [← hends]
  simp [t, Manager.getTree, Descent.Ends]

end Down

/-! ## Loading -/

theorem index_fields (m : Manager) (e : FileEntry) : (m.index e).fileEntries = m.fileEntries ∧
    (m.index e).byId = if isSession e then m.byId else Assoc.set m.byId (idOf e) e := by
  unfold Manager.index
  split
  · exact ⟨rfl, rfl⟩
  · dsimp only
    split
    · split
      · split <;> exact ⟨rfl, rfl⟩
      · exact ⟨rfl, rfl⟩
    · exact ⟨rfl, rfl⟩

theorem foldl_index_fields (file : List FileEntry) (m : Manager) :
    (file.foldl Manager.index m).fileEntries = m.fileEntries ∧
      (file.foldl Manager.index m).byId = (file.filter (!isSession ·)).foldl
        (fun index entry => Assoc.set index (idOf entry) entry) m.byId := by
  induction file generalizing m with
  | nil => exact ⟨rfl, rfl⟩
  | cons e file ih =>
    obtain ⟨hentries, hbyId⟩ := ih (m.index e)
    obtain ⟨hentries', hbyId'⟩ := index_fields m e
    refine ⟨hentries.trans hentries', ?_⟩
    rw [List.foldl_cons, hbyId, hbyId', List.filter_cons]
    cases isSession e <;> rfl

/-- **Loading ends** exactly where no entry is its own ancestor and no root is above an id that is
above itself. -/
theorem loads_iff (time : Option String → Option Int) (file : List FileEntry) (flushed : Bool) :
    Loads time (Manager.buildIndex file flushed) ↔ Rooted (Manager.buildIndex file flushed) := by
  obtain ⟨hentries, hbyId⟩ := foldl_index_fields file ⟨file, [], [], [], none, flushed⟩
  generalize hm : Manager.buildIndex file flushed = m
  have hm' : file.foldl Manager.index ⟨file, [], [], [], none, flushed⟩ = m := hm
  rw [hm'] at hentries hbyId
  have hindex : ∀ byId ∈ [none, some m.byId], buildEntryIndex m.getEntries byId = m.byId := by
    intro byId hbyId'
    rcases List.mem_cons.mp hbyId' with rfl | hbyId'
    · rw [buildEntryIndex, Manager.getEntries, hentries, hbyId]
      rfl
    · rw [List.mem_singleton.mp hbyId']
      rfl
  constructor
  · intro h
    refine ⟨fun e he => ?_, getTree_ends_iff.mp h.tree⟩
    obtain ⟨s, hne, hs⟩ := find_of_isParent he
    have hbranch := h.branch none (some s)
    exact walkUp_ends_iff.mp hbranch e hs e .refl he
  · intro h
    have hends (leaf : Option FileEntry) : ∃ fuel, (walkUp m.byId fuel leaf).isSome :=
      walkUp_ends_iff.mpr fun _ _ a _ => h.up a
    refine ⟨fun leafId byId hbyId' => ?_, fun leafId fromId => hends _,
      getTree_ends_iff.mpr h.down⟩
    simp only [buildSessionPath, hindex byId hbyId']
    by_cases hnull : leafId = some none
    · simp [hnull]
    · simpa [hnull] using hends _

end ThreeXhaust.CodingAgent
