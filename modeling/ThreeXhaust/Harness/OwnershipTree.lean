import ThreeXhaust.Harness.OwnershipExact
import ThreeXhaust.Lib.Run

/-!
# The ownership index and the committed tree

The index next to the committed tables it is about. Publications, the turns of a chain load and
what its reads return, the ends of jobs and the sweeps come in any order; what the Session promises
about each is `Valid`. `Indexed` is what the index is for, and `Sound` what carries it through a
run: what the index knows is a part of the committed ownership tree, and every node is listed where
it should be.
-/

namespace ThreeXhaust.Harness

/-! ## The committed ownership tree -/

namespace Records

variable (r : Records)

def parent : Node → Option (Option Node)
  | .task id => (r.tasks.lookup id).map fun record => some (parentNode record.toTaskNode)
  | .conversation id => (r.conversations.lookup id).map fun owner => owner.map .task

def isTerminal (id : TaskId) : Bool :=
  match r.tasks.lookup id with
  | some record => record.state.isTerminal
  | none => false

/-- A record names its task; what it hangs from was there, with an id, before its own was minted. -/
structure IsTree : Prop where
  nodup : (r.tasks.map (·.1)).Nodup
  tasks : ∀ entry ∈ r.tasks, entry.2.id = entry.1 ∧
    (r.parent (parentNode entry.2.toTaskNode)).isSome = true ∧
    (parentNode entry.2.toTaskNode).id < entry.1
  conversations : ∀ entry ∈ r.conversations, ∀ owner ∈ entry.2,
    (r.parent (.task owner)).isSome = true ∧ owner < entry.1

instance : Decidable r.IsTree :=
  decidable_of_iff
    ((r.tasks.map (·.1)).Nodup ∧
      (∀ entry ∈ r.tasks, entry.2.id = entry.1 ∧
        (r.parent (parentNode entry.2.toTaskNode)).isSome = true ∧
        (parentNode entry.2.toTaskNode).id < entry.1) ∧
      ∀ entry ∈ r.conversations, ∀ owner ∈ entry.2,
        (r.parent (.task owner)).isSome = true ∧ owner < entry.1)
    ⟨fun h => ⟨h.1, h.2.1, h.2.2⟩, fun h => ⟨h.nodup, h.tasks, h.conversations⟩⟩

/-- Whether a commit may make a change: conversations do not change, and a task only before it is
terminal and in none of its ownership fields. -/
def accepts : Change → Bool
  | .conversation id _ => (r.conversations.lookup id).isNone
  | .task record =>
    match r.tasks.lookup record.id with
    | none => true
    | some old => !old.state.isTerminal && old.toTaskNode = record.toTaskNode

def acceptsAll : Records → List Change → Bool
  | _, [] => true
  | r, change :: changes => r.accepts change && acceptsAll (r.applyChange change) changes

/-- `#validateOwners`: what a commit creates is not owned by a task that is terminal behind it. -/
def ownersOpen (changes : List Change) : Bool :=
  changes.all fun
    | .conversation _ owner => owner.all fun owner => !(r.apply changes).isTerminal owner
    | .task record =>
      (r.tasks.lookup record.id).isSome ||
        record.owner.all fun owner => !(r.apply changes).isTerminal owner

end Records

def Overlay.staged (overlay : Overlay) (r : Records) : Bool :=
  overlay.edges.all (fun entry => (r.conversations.lookup entry.1).isNone) &&
    overlay.tasks.all fun entry => !r.isTerminal entry.1

/-! ## The system -/

structure System where
  records : Records
  index : Index
  /-- The chain load of the job on the line. -/
  load : Option Load

namespace System

inductive Action where
  | publish (changes : List Change)
  | loadChain (start : Node) (overlay : Overlay)
  | turn
  | install
  /-- The read of the chain load underway throws. -/
  | fail
  /-- A job that pinned `node` ends. -/
  | jobEnd (node : Node)
  | sweep

def step (s : System) : Action → System
  | .publish changes =>
    { s with
      records := s.records.apply changes
      index := (s.index.observe changes).sweep }
  | .loadChain start overlay =>
    { s with load := some { overlay, passed := [], up := some start, reading := false } }
  | .turn =>
    match s.load with
    | none => s
    | some load =>
      match load.turn s.index with
      | .walks next => { s with load := some next }
      | .reads => { s with load := some { load with reading := true } }
      | .ends => { s with index := load.finish s.index, load := none }
  | .install =>
    match s.load with
    | none => s
    | some load =>
      let (index, load) := load.install s.records s.index
      { s with index, load }
  | .fail => { s with load := none }
  | .jobEnd node => { s with index := s.index.unpin node }
  | .sweep => { s with index := s.index.sweep }

/-- The line's storage waits for the publication of a conversation, so its read finds one. -/
def readable (records : Records) (load : Load) : Bool :=
  match load.up with
  | some (.conversation id) => (records.conversations.lookup id).isSome
  | _ => true

def Valid (s : System) : Action → Prop
  | .publish changes =>
    s.records.acceptsAll changes = true ∧ s.records.ownersOpen changes = true ∧
      (s.records.apply changes).IsTree ∧
      ∀ load ∈ s.load, load.overlay.staged (s.records.apply changes) = true
  | .loadChain _ overlay => s.load = none ∧ overlay.staged s.records = true
  | .turn => ∀ load ∈ s.load, load.reading = false
  | .install => ∃ load ∈ s.load, load.reading = true ∧ readable s.records load = true
  | .fail => True
  | .jobEnd node => node ∈ s.index.pins
  | .sweep => True

instance (s : System) (action : Action) : Decidable (s.Valid action) := by
  cases action with
  | publish changes => exact inferInstanceAs (Decidable (_ ∧ _ ∧ _ ∧ ∀ load ∈ s.load, _))
  | loadChain start overlay =>
    exact decidable_of_iff (s.load.isNone = true ∧ overlay.staged s.records = true)
      (by rw [Option.isNone_iff_eq_none]; rfl)
  | turn => exact inferInstanceAs (Decidable (∀ load ∈ s.load, _))
  | install => exact inferInstanceAs (Decidable (∃ load ∈ s.load, _))
  | fail => exact isTrue trivial
  | jobEnd node => exact inferInstanceAs (Decidable (_ ∈ _))
  | sweep => exact isTrue trivial

end System

/-! ## Chains -/

namespace Known

/-- The way up from `n` is known as far as `stop`, or to its end. -/
inductive UpTo (s : Known) (stop : Option Node) : Node → Prop where
  | here {n : Node} (h : stop = some n) : UpTo s stop n
  | root {n : Node} (h : s.parent n = some none) : UpTo s stop n
  | step {n p : Node} (h : s.parent n = some (some p)) (hup : UpTo s stop p) : UpTo s stop n

/-- `m` is above `n` on the known way up, before `stop`. -/
inductive Above (s : Known) (stop : Option Node) : Node → Node → Prop where
  | base {n p : Node} (h : s.parent n = some (some p)) (hstop : stop ≠ some p) : Above s stop n p
  | step {n p m : Node} (h : s.parent n = some (some p)) (hstop : stop ≠ some p)
      (hup : Above s stop p m) : Above s stop n m

variable {s s' : Known} {stop : Option Node} {n m : Node}

theorem UpTo.mono (hgrows : ∀ n e, s.parent n = some e → s'.parent n = some e)
    (h : s.UpTo stop n) : s'.UpTo stop n := by
  induction h with
  | here h => exact .here h
  | root h => exact .root (hgrows _ _ h)
  | step h _ ih => exact .step (hgrows _ _ h) ih

theorem UpTo.advance {next : Option Node} (hparent : s.parent m = some next)
    (h : s.UpTo (some m) n) : s.UpTo next n := by
  induction h with
  | here h =>
    obtain rfl : m = _ := by simpa using h
    cases next with
    | none => exact .root hparent
    | some p => exact .step hparent (.here rfl)
  | root h => exact .root h
  | step h _ ih => exact .step h ih

theorem UpTo.trans (hm : s.UpTo stop m) (h : s.UpTo (some m) n) : s.UpTo stop n := by
  induction h with
  | here h =>
    obtain rfl : m = _ := by simpa using h
    exact hm
  | root h => exact .root h
  | step h _ ih => exact .step h ih

theorem UpTo.isSome (h : s.UpTo none n) : (s.parent n).isSome = true := by
  cases h with
  | here h => cases h
  | root h => rw [h]; rfl
  | step h _ => rw [h]; rfl

theorem UpTo.of_forgets {s s' : Index} {gone : Node → Prop} (hf : Index.Forgets s s' gone)
    (h : s.UpTo stop n) (hself : ¬gone n) (habove : ∀ m, s.Above stop n m → ¬gone m) :
    s'.UpTo stop n := by
  induction h with
  | here h => exact .here h
  | root h => exact .root ((hf.parent_kept hself).trans h)
  | @step n p h _ ih =>
    refine .step ((hf.parent_kept hself).trans h) ?_
    by_cases hstop : stop = some p
    · exact .here hstop
    · exact ih (habove p (.base h hstop)) fun m hm => habove m (.step h hstop hm)

end Known

/-! ## What is said of the index -/

namespace Records

variable (r : Records)

def up (n : Node) : Option Node :=
  (r.parent n).join

def enters (crossBackground : Bool) : Node → Bool
  | .conversation _ => true
  | .task id =>
    match r.tasks.lookup id with
    | none => false
    | some record => crossBackground || !record.background

end Records

namespace System

/-- No sweep of `index` takes a node out of a chain that counts as loaded: one above a known task
outside `unloaded`, or between a task that the chain load underway has passed and where it is. -/
def KeepsChains (s : System) (index : Index) : Prop :=
  ∀ id, (index.node id).isSome = true → ¬index.Swept (.task id) →
    (id ∉ index.unloaded → ∀ n, index.Above none (.task id) n → ¬index.Swept n) ∧
    ∀ load ∈ s.load, id ∈ load.passed → ∀ n, index.Above load.up (.task id) n → ¬index.Swept n

def Keeps (s : System) : Action → Prop
  | .publish changes => s.KeepsChains (s.index.observe changes)
  | .sweep => s.KeepsChains s.index
  | _ => True

structure Indexed (s : System) : Prop where
  /-- A node is listed below its known parent while it is live or has nodes listed below it. -/
  below : ∀ p n, (p, n) ∈ s.index.below ↔
    s.index.parent n = some (some p) ∧
      (s.index.isLive n = true ∨ ∃ c, (n, c) ∈ s.index.below)
  /-- The roots are the known ownerless conversations with nodes listed below them. -/
  roots : ∀ c, c ∈ s.index.roots ↔
    s.index.edges.lookup c = some none ∧ ∃ n, (.conversation c, n) ∈ s.index.below
  /-- A sweep forgets no live task and nothing on the known way up from one. -/
  kept : ∀ id n, s.index.isLive (.task id) = true →
    n = .task id ∨ Forest.Climbs (fun m => (s.index.parent m).join) (fun _ => true) (.task id) n →
    s.index.sweep.parent n = s.index.parent n
  /-- With no live task in `unloaded`, a walk down ends, yields no task twice, and yields exactly
  the live tasks from which the way up in the committed tree reaches its start. -/
  walkDown : (∀ id ∈ s.index.unloaded, s.index.isLive (.task id) = false) →
    ∀ crossBackground start, ∃ yields,
      (∀ fuel, s.index.below.length < fuel →
        s.index.walkDown .empty crossBackground (fun _ => true) fuel start = some yields) ∧
      (yields.map (·.id)).Nodup ∧
      ∀ id, (∃ y ∈ yields, y.id = id ∧ y.live.isSome = true) ↔
        s.index.isLive (.task id) = true ∧
          Forest.Climbs s.records.up (s.records.enters crossBackground) (.task id) start

/-- The state behind `open`. -/
def opened (r : Records) : System :=
  { records := r, index := r.opened, load := none }

end System

/-! ## What commits do to the tree -/

namespace Records

variable {r r' r'' : Records} {changes : List Change} {change : Change} {id o : TaskId}
  {c : ConversationId} {record : TaskRecord} {owner : Option TaskId} {n m : Node}

theorem IsTree.task (h : r.IsTree) (hid : r.tasks.lookup id = some record) :
    record.id = id ∧ (r.parent (parentNode record.toTaskNode)).isSome = true ∧
      (parentNode record.toTaskNode).id < id :=
  h.tasks (id, record) (Assoc.mem_of_lookup hid)

theorem IsTree.conversation (h : r.IsTree) (hc : r.conversations.lookup c = some (some o)) :
    (r.parent (.task o)).isSome = true ∧ o < c :=
  h.conversations (c, some o) (Assoc.mem_of_lookup hc) o rfl

theorem IsTree.parent_lt (h : r.IsTree) (hn : r.parent n = some (some m)) :
    (r.parent m).isSome = true ∧ m.id < n.id := by
  cases n with
  | task id =>
    rw [parent, Option.map_eq_some_iff] at hn
    obtain ⟨record, hrecord, hm⟩ := hn
    obtain rfl : parentNode record.toTaskNode = m := by simpa using hm
    exact (h.task hrecord).2
  | conversation c =>
    rw [parent, Option.map_eq_some_iff] at hn
    obtain ⟨owner, howner, hm⟩ := hn
    rw [Option.map_eq_some_iff] at hm
    obtain ⟨o, rfl, rfl⟩ := hm
    exact h.conversation howner

/-- Later tables: what was there still is, and what is immutable did not change. -/
structure Extends (r r' : Records) : Prop where
  conversations : ∀ c owner, r.conversations.lookup c = some owner →
    r'.conversations.lookup c = some owner
  tasks : ∀ id record, r.tasks.lookup id = some record →
    ∃ record', r'.tasks.lookup id = some record' ∧ record'.toTaskNode = record.toTaskNode
  terminal : ∀ id record, r.tasks.lookup id = some record → record.state.isTerminal = true →
    r'.tasks.lookup id = some record

theorem Extends.refl (r : Records) : Extends r r :=
  ⟨fun _ _ h => h, fun _ record h => ⟨record, h, rfl⟩, fun _ _ h _ => h⟩

theorem Extends.trans (h : Extends r r') (h' : Extends r' r'') : Extends r r'' := by
  refine ⟨fun c owner hc => h'.conversations c owner (h.conversations c owner hc), ?_, ?_⟩
  · intro id record hid
    obtain ⟨record', hid', hnode⟩ := h.tasks id record hid
    obtain ⟨record'', hid'', hnode'⟩ := h'.tasks id record' hid'
    exact ⟨record'', hid'', hnode'.trans hnode⟩
  · intro id record hid hterminal
    exact h'.terminal id record (h.terminal id record hid hterminal) hterminal

theorem Extends.parent (h : Extends r r') {e : Option Node} (hn : r.parent n = some e) :
    r'.parent n = some e := by
  cases n with
  | task id =>
    rw [Records.parent, Option.map_eq_some_iff] at hn
    obtain ⟨record, hid, rfl⟩ := hn
    obtain ⟨record', hid', hnode⟩ := h.tasks id record hid
    rw [Records.parent, hid', Option.map_some, hnode]
  | conversation c =>
    rw [Records.parent, Option.map_eq_some_iff] at hn
    obtain ⟨owner, hc, rfl⟩ := hn
    rw [Records.parent, h.conversations c owner hc, Option.map_some]

theorem Extends.isTerminal (h : Extends r r') (hid : r.isTerminal id = true) :
    r'.isTerminal id = true := by
  rw [Records.isTerminal] at hid ⊢
  cases hrecord : r.tasks.lookup id with
  | none => simp [hrecord] at hid
  | some record =>
    simp only [hrecord] at hid
    rw [h.terminal id record hrecord hid]
    exact hid

theorem extends_applyChange (h : r.accepts change = true) : Extends r (r.applyChange change) := by
  cases change with
  | conversation c owner =>
    have hnone : r.conversations.lookup c = none := by simpa [accepts] using h
    refine ⟨fun c' owner' hc' => ?_, fun _ record h => ⟨record, h, rfl⟩, fun _ _ h _ => h⟩
    have hne : c' ≠ c := by
      rintro rfl
      rw [hnone] at hc'
      cases hc'
    rw [applyChange, Assoc.lookup_set, if_neg hne]
    exact hc'
  | task new =>
    refine ⟨fun _ _ h => h, fun id record hid => ?_, fun id record hid hterminal => ?_⟩
    · rw [applyChange, Assoc.lookup_set]
      by_cases hne : id = new.id
      · subst hne
        simp only [accepts, hid, Bool.and_eq_true, decide_eq_true_eq] at h
        exact ⟨new, if_pos rfl, h.2.symm⟩
      · exact ⟨record, (if_neg hne).trans hid, rfl⟩
    · rw [applyChange, Assoc.lookup_set]
      by_cases hne : id = new.id
      · subst hne
        simp [accepts, hid, hterminal] at h
      · exact (if_neg hne).trans hid

theorem extends_apply (h : r.acceptsAll changes = true) : Extends r (r.apply changes) := by
  induction changes generalizing r with
  | nil => exact .refl r
  | cons change changes ih =>
    rw [acceptsAll, Bool.and_eq_true] at h
    exact (extends_applyChange h.1).trans (ih h.2)

theorem lookup_of_conversation_mem (h : r.acceptsAll changes = true)
    (hmem : Change.conversation c owner ∈ changes) :
    (r.apply changes).conversations.lookup c = some owner := by
  induction changes generalizing r with
  | nil => cases hmem
  | cons change changes ih =>
    rw [acceptsAll, Bool.and_eq_true] at h
    rcases List.mem_cons.mp hmem with rfl | hrest
    · refine (extends_apply h.2).conversations c owner ?_
      rw [applyChange, Assoc.lookup_set, if_pos rfl]
    · exact ih h.2 hrest

theorem conversation_of_lookup (h : (r.apply changes).conversations.lookup c = some owner) :
    r.conversations.lookup c = some owner ∨ Change.conversation c owner ∈ changes := by
  induction changes generalizing r with
  | nil => exact .inl h
  | cons change changes ih =>
    rcases ih (r := r.applyChange change) h with hold | hnew
    · cases change with
      | task record => exact .inl hold
      | conversation c' owner' =>
        rw [applyChange, Assoc.lookup_set] at hold
        split at hold
        · rename_i heq
          obtain rfl : owner' = owner := by simpa using hold
          exact .inr (heq ▸ List.mem_cons_self)
        · exact .inl hold
    · exact .inr (List.mem_cons_of_mem _ hnew)

theorem task_of_lookup (h : (r.apply changes).tasks.lookup id = some record) :
    r.tasks.lookup id = some record ∨ Change.task record ∈ changes ∧ record.id = id := by
  induction changes generalizing r with
  | nil => exact .inl h
  | cons change changes ih =>
    rcases ih (r := r.applyChange change) h with hold | ⟨hnew, hid⟩
    · cases change with
      | conversation c' owner' => exact .inl hold
      | task record' =>
        rw [applyChange, Assoc.lookup_set] at hold
        split at hold
        · rename_i heq
          obtain rfl : record' = record := by simpa using hold
          exact .inr ⟨List.mem_cons_self, heq.symm⟩
        · exact .inl hold
    · exact .inr ⟨List.mem_cons_of_mem _ hnew, hid⟩

/-- A task that a commit creates and that something hangs from behind it is not terminal there. -/
theorem not_terminal_of_parent (htree : r.IsTree) (haccepts : r.acceptsAll changes = true)
    (hopen : r.ownersOpen changes = true) (hnew : r.tasks.lookup o = none)
    (hparent : (r.apply changes).parent m = some (some (.task o))) :
    (r.apply changes).isTerminal o = false := by
  have hold : r.parent m ≠ some (some (.task o)) := by
    intro hm
    have hsome := (htree.parent_lt hm).1
    simp [parent, hnew] at hsome
  rw [ownersOpen, List.all_eq_true] at hopen
  cases m with
  | conversation c =>
    rw [parent, Option.map_eq_some_iff] at hparent
    obtain ⟨owner, hc, howner⟩ := hparent
    rw [Option.map_eq_some_iff] at howner
    obtain ⟨o', rfl, ho'⟩ := howner
    obtain rfl : o' = o := by simpa using ho'
    rcases conversation_of_lookup hc with hbefore | hmem
    · exact absurd (by rw [parent, hbefore]; rfl) hold
    · simpa using hopen _ hmem
  | task id =>
    rw [parent, Option.map_eq_some_iff] at hparent
    obtain ⟨record, hid, hrecord⟩ := hparent
    have howner : record.owner = some o := by
      cases howner : record.owner with
      | none => simp [parentNode, howner] at hrecord
      | some o' => simpa [parentNode, howner] using hrecord
    rcases task_of_lookup hid with hbefore | ⟨hmem, hid'⟩
    · exact absurd (by rw [parent, hbefore, Option.map_some, hrecord]) hold
    · have hfresh : r.tasks.lookup record.id = none := by
        cases hlookup : r.tasks.lookup record.id with
        | none => rfl
        | some before =>
          obtain ⟨record', hid'', hnode⟩ := (extends_apply haccepts).tasks _ _ hlookup
          rw [hid'] at hid''
          obtain rfl : record = record' := by simpa using hid.symm.trans hid''
          refine absurd ?_ hold
          rw [parent, ← hid', hlookup, Option.map_some, ← hnode, hrecord]
      have hchange := hopen _ hmem
      simp only [hfresh, Option.isSome_none, Bool.false_or, howner] at hchange
      simpa using hchange

end Records

/-! ## What is known is committed -/

namespace Index

variable {s s' : Index} {r r' : Records} {n m : Node} {id : TaskId} {c : ConversationId}
  {record : TaskRecord} {owner : Option TaskId}

structure Sound (r : Records) (s : Index) : Prop where
  live : ∀ id record, s.live.lookup id = some record ↔
    r.tasks.lookup id = some record ∧ record.state.isTerminal = false
  settled : ∀ id node, s.settled.lookup id = some node →
    ∃ record, r.tasks.lookup id = some record ∧ record.state.isTerminal = true ∧
      record.toTaskNode = node
  edges : ∀ c owner, s.edges.lookup c = some owner → r.conversations.lookup c = some owner
  pins : ∀ n ∈ s.pins, (r.parent n).isSome = true
  exact : s.Exact

theorem Sound.node (h : s.Sound r) {node : TaskNode} (hnode : s.node id = some node) :
    ∃ record, r.tasks.lookup id = some record ∧ record.toTaskNode = node := by
  rw [Known.node] at hnode
  cases hlive : s.live.lookup id with
  | some record =>
    simp only [hlive, Option.some.injEq] at hnode
    exact ⟨record, ((h.live id record).mp hlive).1, hnode⟩
  | none =>
    simp only [hlive] at hnode
    obtain ⟨record, hrecord, _, heq⟩ := h.settled id node hnode
    exact ⟨record, hrecord, heq⟩

theorem Sound.parent (h : s.Sound r) {e : Option Node} (hn : s.parent n = some e) :
    r.parent n = some e := by
  cases n with
  | task id =>
    rw [Known.parent, Option.map_eq_some_iff] at hn
    obtain ⟨node, hnode, rfl⟩ := hn
    obtain ⟨record, hrecord, rfl⟩ := h.node hnode
    rw [Records.parent, hrecord, Option.map_some]
  | conversation c =>
    rw [Known.parent, Option.map_eq_some_iff] at hn
    obtain ⟨owner, hedge, rfl⟩ := hn
    rw [Records.parent, h.edges c owner hedge, Option.map_some]

theorem ordered_of_parent {s : Known} (htree : r.IsTree)
    (hparent : ∀ n e, s.parent n = some e → r.parent n = some e) : Ordered s :=
  fun n p hp => (htree.parent_lt (hparent n (some p) hp)).2

theorem Sound.ordered (h : s.Sound r) (hext : r.Extends r') (htree : r'.IsTree) :
    Ordered s.toKnown :=
  ordered_of_parent htree fun _ _ hn => hext.parent (h.parent hn)

theorem Sound.of_sameButListing (hsame : SameButListing s s') (hexact : s'.Exact)
    (hlive : ∀ id record, s.live.lookup id = some record ↔
      r.tasks.lookup id = some record ∧ record.state.isTerminal = false)
    (hsettled : ∀ id node, s.settled.lookup id = some node →
      ∃ record, r.tasks.lookup id = some record ∧ record.state.isTerminal = true ∧
        record.toTaskNode = node)
    (hedges : ∀ c owner, s.edges.lookup c = some owner → r.conversations.lookup c = some owner)
    (hpins : ∀ n ∈ s.pins, (r.parent n).isSome = true) : s'.Sound r := by
  refine ⟨?_, ?_, ?_, ?_, hexact⟩
  · rw [hsame.known]
    exact hlive
  · rw [hsame.known]
    exact hsettled
  · rw [hsame.known]
    exact hedges
  · rw [hsame.pins]
    exact hpins

theorem Sound.setEdge (h : s.Sound r) (hext : r.Extends r') (htree : r'.IsTree)
    (hc : r.conversations.lookup c = some owner) : (s.setEdge c owner).Sound r := by
  have hedges : ∀ c' owner', (Assoc.set s.edges c owner).lookup c' = some owner' →
      r.conversations.lookup c' = some owner' := by
    intro c' owner' hc'
    rw [Assoc.lookup_set] at hc'
    split at hc'
    · rename_i heq
      obtain rfl : owner = owner' := by simpa using hc'
      rw [heq, hc]
    · exact h.edges c' owner' hc'
  have hord : Ordered { s.toKnown with edges := Assoc.set s.edges c owner } := by
    apply ordered_of_parent htree
    intro n e hn
    rw [Known.parent_setEdge] at hn
    split at hn
    · rename_i heq
      rw [heq, Records.parent, hext.conversations c owner hc, Option.map_some, hn]
    · exact hext.parent (h.parent hn)
  refine .of_sameButListing (setEdge_same s c owner) (h.exact.setEdge hord ?_) h.live h.settled
    hedges h.pins
  intro owner' howner'
  simpa using (h.edges c owner' howner').symm.trans hc

theorem Sound.live_eq_none (h : s.Sound r) (hid : r.tasks.lookup id = some record)
    (hterminal : record.state.isTerminal = true) : s.live.lookup id = none := by
  cases hlive : s.live.lookup id with
  | none => rfl
  | some other =>
    obtain ⟨hother, hnot⟩ := (h.live id other).mp hlive
    obtain rfl : record = other := by simpa using hid.symm.trans hother
    rw [hterminal] at hnot
    cases hnot

theorem Sound.settle (h : s.Sound r) (hext : r.Extends r') (htree : r'.IsTree)
    (hid : r.tasks.lookup id = some record) (hterminal : record.state.isTerminal = true) :
    (s.settle id record.toTaskNode).Sound r := by
  have hlive := h.live_eq_none hid hterminal
  have hsettled : ∀ id' node, (Assoc.set s.settled id record.toTaskNode).lookup id' = some node →
      ∃ record, r.tasks.lookup id' = some record ∧ record.state.isTerminal = true ∧
        record.toTaskNode = node := by
    intro id' node hid'
    rw [Assoc.lookup_set] at hid'
    split at hid'
    · rename_i heq
      exact ⟨record, heq ▸ hid, hterminal, by simpa using hid'⟩
    · exact h.settled id' node hid'
  have hord : Ordered { s.toKnown with settled := Assoc.set s.settled id record.toTaskNode } := by
    apply ordered_of_parent htree
    intro n e hn
    rw [Known.parent_settle hlive] at hn
    split at hn
    · rename_i heq
      rw [heq]
      refine hext.parent ?_
      rw [Records.parent, hid, Option.map_some, hn]
    · exact hext.parent (h.parent hn)
  refine .of_sameButListing (settle_same s id _) (h.exact.settle hord hlive ?_) h.live hsettled
    h.edges h.pins
  intro old hold
  obtain ⟨record', hid', _, rfl⟩ := h.settled id old hold
  obtain rfl : record = record' := by simpa using hid.symm.trans hid'
  rfl

theorem Sound.pin (h : s.Sound r) (hn : (r.parent n).isSome = true) : (s.pin n).Sound r := by
  refine ⟨h.live, h.settled, h.edges, ?_, h.exact.of_eq rfl rfl rfl⟩
  intro m hm
  rcases List.mem_cons.mp hm with rfl | hold
  · exact hn
  · exact h.pins m hold

theorem Sound.unpin (h : s.Sound r) (n : Node) : (s.unpin n).Sound r := by
  have herase : Sound r { s with pins := s.pins.erase n } :=
    ⟨h.live, h.settled, h.edges, fun m hm => h.pins m (List.mem_of_mem_erase hm),
      h.exact.of_eq rfl rfl rfl⟩
  rw [Index.unpin]
  dsimp only
  split
  · exact herase
  · have hsame := dropIfUnneeded_same { s with pins := s.pins.erase n } n
    exact .of_sameButListing hsame.sameButListing
      (herase.exact.of_eq hsame.known hsame.below hsame.roots) herase.live herase.settled
      herase.edges herase.pins

theorem Sound.setUnloaded (h : s.Sound r) (unloaded : List TaskId) :
    Sound r { s with unloaded := unloaded } :=
  ⟨h.live, h.settled, h.edges, h.pins, h.exact.of_eq rfl rfl rfl⟩

theorem Sound.sweep (h : s.Sound r) : s.sweep.Sound r := by
  have hf := sweep_forgets s
  refine ⟨hf.same.live ▸ h.live, ?_, ?_, hf.same.pins ▸ h.pins, h.exact.sweep⟩
  · intro id node hid
    exact h.settled id node (hf.settled id node hid)
  · intro c owner hc
    by_cases hgone : s.Swept (.conversation c)
    · rw [hf.edge_gone c hgone] at hc
      cases hc
    · rw [hf.edge_kept c hgone] at hc
      exact h.edges c owner hc

/-! ## Tracking a change -/

theorem Sound.lookup_node (h : s.Sound r) (haccepts : r.accepts (.task record) = true)
    {old : TaskNode} (hold : s.node record.id = some old) : old = record.toTaskNode := by
  obtain ⟨before, hbefore, rfl⟩ := h.node hold
  simp only [Records.accepts, hbefore, Bool.and_eq_true, decide_eq_true_eq] at haccepts
  exact haccepts.2

theorem Sound.live_or_new (h : s.Sound r) (haccepts : r.accepts (.task record) = true) :
    (∃ old, s.live.lookup record.id = some old ∧ r.tasks.lookup record.id = some old) ∨
      (s.live.lookup record.id = none ∧ r.tasks.lookup record.id = none) := by
  cases hlookup : r.tasks.lookup record.id with
  | none =>
    refine .inr ⟨?_, rfl⟩
    cases hlive : s.live.lookup record.id with
    | none => rfl
    | some old =>
      have hold := ((h.live _ _).mp hlive).1
      rw [hlookup] at hold
      cases hold
  | some old =>
    simp only [Records.accepts, hlookup, Bool.and_eq_true, Bool.not_eq_true'] at haccepts
    exact .inl ⟨old, (h.live _ _).mpr ⟨hlookup, haccepts.1⟩, rfl⟩

theorem lookup_applyChange (r : Records) (record : TaskRecord) (id : TaskId) :
    (r.applyChange (.task record)).tasks.lookup id
      = if id = record.id then some record else r.tasks.lookup id :=
  Assoc.lookup_set

theorem parent_applyChange (r : Records) (record : TaskRecord) :
    (r.applyChange (.task record)).parent (.task record.id)
      = some (some (parentNode record.toTaskNode)) := by
  rw [Records.parent, lookup_applyChange, if_pos rfl, Option.map_some]

theorem Sound.live_set (h : s.Sound r) (hterminal : record.state.isTerminal = false)
    (id : TaskId) (other : TaskRecord) :
    (Assoc.set s.live record.id record).lookup id = some other ↔
      (r.applyChange (.task record)).tasks.lookup id = some other ∧
        other.state.isTerminal = false := by
  rw [Assoc.lookup_set, lookup_applyChange]
  by_cases hid : id = record.id
  · rw [if_pos hid, if_pos hid]
    constructor
    · intro heq
      obtain rfl : record = other := by simpa using heq
      exact ⟨rfl, hterminal⟩
    · exact fun heq => heq.1
  · rw [if_neg hid, if_neg hid]
    exact h.live id other

theorem Sound.settled_applyChange (h : s.Sound r) (haccepts : r.accepts (.task record) = true)
    (id : TaskId) (node : TaskNode) (hid : s.settled.lookup id = some node) :
    ∃ ended, (r.applyChange (.task record)).tasks.lookup id = some ended ∧
      ended.state.isTerminal = true ∧ ended.toTaskNode = node := by
  obtain ⟨ended, hended, hterminal, hnode⟩ := h.settled id node hid
  exact ⟨ended, (Records.extends_applyChange haccepts).terminal id ended hended hterminal,
    hterminal, hnode⟩

theorem Sound.pins_applyChange (h : s.Sound r) (haccepts : r.accepts (.task record) = true) :
    ∀ n ∈ s.pins, ((r.applyChange (.task record)).parent n).isSome = true := by
  intro n hn
  obtain ⟨e, he⟩ := Option.isSome_iff_exists.mp (h.pins n hn)
  rw [(Records.extends_applyChange haccepts).parent he]
  rfl

theorem Sound.trackEnd (h : s.Sound r) (haccepts : r.accepts (.task record) = true)
    (hterminal : record.state.isTerminal = true)
    (hext : (r.applyChange (.task record)).Extends r') (htree : r'.IsTree) :
    (s.trackEnd record).Sound (r.applyChange (.task record)) := by
  have hord : Ordered { s.toKnown with
      live := Assoc.erase s.live record.id
      settled := Assoc.set s.settled record.id record.toTaskNode } := by
    apply ordered_of_parent htree
    intro n e hn
    rw [Known.parent_end] at hn
    split at hn
    · rename_i heq
      exact hext.parent (heq ▸ (parent_applyChange r record).trans hn)
    · exact hext.parent ((Records.extends_applyChange haccepts).parent (h.parent hn))
  refine .of_sameButListing (trackEnd_same s record)
    (h.exact.trackEnd hord fun _ hold => h.lookup_node haccepts hold) ?_ ?_ h.edges
    (h.pins_applyChange haccepts)
  · intro id other
    show (Assoc.erase s.live record.id).lookup id = _ ↔ _
    rw [Assoc.lookup_erase, lookup_applyChange]
    by_cases hid : id = record.id
    · rw [if_pos hid, if_pos hid]
      simp only [reduceCtorEq, Option.some.injEq, false_iff, not_and, Bool.not_eq_false]
      rintro rfl
      exact hterminal
    · rw [if_neg hid, if_neg hid]
      exact h.live id other
  · intro id node hid
    change (Assoc.set s.settled record.id record.toTaskNode).lookup id = some node at hid
    rw [Assoc.lookup_set] at hid
    split at hid
    · rename_i heq
      refine ⟨record, ?_, hterminal, by simpa using hid⟩
      rw [lookup_applyChange, if_pos heq]
    · exact h.settled_applyChange haccepts id node hid

theorem Sound.trackNew (h : s.Sound r) (haccepts : r.accepts (.task record) = true)
    (hterminal : record.state.isTerminal = false)
    (hext : (r.applyChange (.task record)).Extends r') (htree : r'.IsTree) :
    (s.trackNew record).Sound (r.applyChange (.task record)) := by
  have hord : Ordered { s.toKnown with live := Assoc.set s.live record.id record } := by
    apply ordered_of_parent htree
    intro n e hn
    rw [Known.parent_setLive] at hn
    split at hn
    · rename_i heq
      exact hext.parent (heq ▸ (parent_applyChange r record).trans hn)
    · exact hext.parent ((Records.extends_applyChange haccepts).parent (h.parent hn))
  exact .of_sameButListing (trackNew_same s record)
    (h.exact.trackNew hord fun _ hold => h.lookup_node haccepts hold) (h.live_set hterminal)
    (h.settled_applyChange haccepts) h.edges (h.pins_applyChange haccepts)

theorem track_of_terminal (hterminal : record.state.isTerminal = true)
    (previous : Option TaskRecord) : s.track previous record = s.trackEnd record := by
  cases previous <;> rw [Index.track, if_pos hterminal]

theorem track_none (hterminal : record.state.isTerminal = false) :
    s.track none record = s.trackNew record := by
  rw [Index.track, if_neg (by simp [hterminal])]

theorem track_some (hterminal : record.state.isTerminal = false) (old : TaskRecord) :
    s.track (some old) record = { s with live := Assoc.set s.live record.id record } := by
  rw [Index.track, if_neg (by simp [hterminal])]

theorem Sound.track (h : s.Sound r) (haccepts : r.accepts (.task record) = true)
    (hext : (r.applyChange (.task record)).Extends r') (htree : r'.IsTree) :
    (s.track (s.live.lookup record.id) record).Sound (r.applyChange (.task record)) := by
  cases hterminal : record.state.isTerminal with
  | true =>
    rw [track_of_terminal hterminal]
    exact h.trackEnd haccepts hterminal hext htree
  | false =>
    rcases h.live_or_new haccepts with ⟨old, hlive, hold⟩ | ⟨hlive, _⟩
    · rw [hlive, track_some hterminal]
      have hnode : old.toTaskNode = record.toTaskNode :=
        h.lookup_node haccepts (by rw [Known.node, hlive])
      exact ⟨h.live_set hterminal, h.settled_applyChange haccepts, h.edges,
        h.pins_applyChange haccepts, h.exact.setLive hlive hnode⟩
    · rw [hlive, track_none hterminal]
      exact h.trackNew haccepts hterminal hext htree

end Index

end ThreeXhaust.Harness
