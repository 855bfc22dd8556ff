import ThreeXhaust.Harness.OwnershipTree

/-!
# Runs of the ownership index

In every run the index is exact. Whether a walk down finds all that is owned also depends on the
chains above live tasks being loaded, and a sweep may take a node out of a chain that counts as
loaded: nothing pins the nodes that a chain load finds known, and a task that has ended holds
nothing above it. Where no sweep does (`Keeps`), the chain of every known task outside `unloaded` is
whole.
-/

namespace ThreeXhaust.Harness

namespace Index

variable {s s' : Index} {r r' r₀ : Records} {n m p : Node} {id o : TaskId} {c : ConversationId}
  {record : TaskRecord} {owner : Option TaskId} {changes : List Change} {load : Option Load}

/-! ## A publication keeps the index sound -/

/-- The conversations of a publication first, -/
theorem Sound.observeConversations (h : s.Sound r) (hext : r.Extends r') (htree : r'.IsTree)
    (hmem : ∀ c owner, Change.conversation c owner ∈ changes →
      r.conversations.lookup c = some owner) :
    (changes.foldl observeConversation s).Sound r := by
  induction changes generalizing s with
  | nil => exact h
  | cons change changes ih =>
    refine ih ?_ fun c owner hc => hmem c owner (List.mem_cons_of_mem _ hc)
    cases change with
    | task record => exact h
    | conversation c owner =>
      rw [observeConversation]
      split
      · exact h
      · exact h.setEdge hext htree (hmem c owner List.mem_cons_self)

/-- The tables in between: all the commit's conversations are there, and the tasks as far as they
are tracked. -/
def withConversations (r r' : Records) : Records :=
  { r with conversations := r'.conversations }

/-- then its tasks. -/
theorem Sound.observeTasks (h : s.Sound (withConversations r r'))
    (haccepts : r.acceptsAll changes = true) (hr' : r.apply changes = r')
    (htree : r'.IsTree) : (changes.foldl observeTask s).Sound r' := by
  induction changes generalizing r s with
  | nil =>
    subst hr'
    exact h
  | cons change changes ih =>
    rw [Records.acceptsAll, Bool.and_eq_true] at haccepts
    refine ih ?_ haccepts.2 hr'
    cases change with
    | conversation c owner => exact h
    | task record =>
      have hext := Records.extends_apply haccepts.2
      change Records.Extends _ (r.apply (.task record :: changes)) at hext
      rw [hr'] at hext
      have hext' : ((withConversations r r').applyChange (.task record)).Extends r' :=
        ⟨fun _ _ hc => hc, hext.tasks, hext.terminal⟩
      exact h.track haccepts.1 hext' htree

theorem Sound.withConversations (h : s.Sound r) (hext : r.Extends r') :
    s.Sound (withConversations r r') := by
  refine ⟨h.live, h.settled, fun c owner hc => hext.conversations c owner (h.edges c owner hc), ?_,
    h.exact⟩
  intro n hn
  have hold := h.pins n hn
  cases n with
  | task id => exact hold
  | conversation c =>
    obtain ⟨e, he⟩ := Option.isSome_iff_exists.mp hold
    have hnew := hext.parent he
    show (r'.parent (.conversation c)).isSome = true
    rw [hnew]
    rfl

/-- **A publication keeps the index sound.** -/
theorem Sound.observe (h : s.Sound r) (haccepts : r.acceptsAll changes = true)
    (htree : (r.apply changes).IsTree) : (s.observe changes).Sound (r.apply changes) := by
  have hext := Records.extends_apply haccepts
  have hmid : (Index.withConversations r (r.apply changes)).Extends (r.apply changes) :=
    ⟨fun _ _ hc => hc, hext.tasks, hext.terminal⟩
  refine Sound.observeTasks (r := r) ?_ haccepts rfl htree
  exact (h.withConversations hext).observeConversations hmid htree fun c owner hc =>
    Records.lookup_of_conversation_mem haccepts hc

/-! ## A publication keeps chains whole -/

/-- A task that this publication created and ended at once: the sweep at its end drops it. -/
structure Ended (r₀ r : Records) (s : Index) (id : TaskId) : Prop where
  new : r₀.tasks.lookup id = none
  terminal : r.isTerminal id = true
  queued : .task id ∈ s.dropQueue

/-- The chains of the known tasks outside `unloaded` are whole, and those of the tasks that a load
passed as far as it is. `r₀` are the tables before the publication, `r` those it has reached. -/
structure Chained (r₀ r : Records) (load : Option Load) (s : Index) : Prop where
  loaded : ∀ id, (s.node id).isSome = true → id ∉ s.unloaded →
    s.UpTo none (.task id) ∨ Ended r₀ r s id
  passed : ∀ l ∈ load, ∀ id ∈ l.passed, (s.node id).isSome = true → s.UpTo l.up (.task id)

/-- What is known of the way up only grows, and so does the queue. -/
structure Grows (s s' : Index) : Prop where
  parent : ∀ n e, s.parent n = some e → s'.parent n = some e
  queue : s.dropQueue ⊆ s'.dropQueue

theorem Ended.mono (hgrows : Grows s s') (hext : r.Extends r') (h : Ended r₀ r s id) :
    Ended r₀ r' s' id :=
  ⟨h.new, hext.isTerminal h.terminal, hgrows.queue h.queued⟩

theorem Chained.mono (h : Chained r₀ r load s) (hgrows : Grows s s') (hext : r.Extends r')
    (hnode : ∀ id, (s'.node id).isSome = true → (s.node id).isSome = true)
    (hunloaded : s'.unloaded = s.unloaded) : Chained r₀ r' load s' := by
  refine ⟨fun id hid hnot => ?_, fun l hl id hpassed hid => ?_⟩
  · rw [hunloaded] at hnot
    exact (h.loaded id (hnode id hid) hnot).imp (fun hup => hup.mono hgrows.parent)
      (fun hended => hended.mono hgrows hext)
  · exact (h.passed l hl id hpassed (hnode id hid)).mono hgrows.parent

theorem Sound.grows_setEdge (h : s.Sound r) (hc : r.conversations.lookup c = some owner) :
    Grows s (s.setEdge c owner) := by
  have hsame := setEdge_same s c owner
  refine ⟨fun n e hn => ?_, hsame.queue⟩
  rw [hsame.known, Known.parent_setEdge]
  split
  · rename_i heq
    rw [heq] at hn
    have hr := h.parent hn
    rw [Records.parent, hc, Option.map_some] at hr
    exact hr
  · exact hn

theorem Chained.setEdge (h : Chained r₀ r load s) (hs : s.Sound r)
    (hc : r.conversations.lookup c = some owner) : Chained r₀ r load (s.setEdge c owner) := by
  have hsame := setEdge_same s c owner
  refine h.mono (hs.grows_setEdge hc) (.refl r) ?_ hsame.unloaded
  intro id hid
  rw [hsame.known] at hid
  exact hid

theorem Chained.observeConversations (h : Chained r₀ r load s) (hs : s.Sound r)
    (hext : r.Extends r') (htree : r'.IsTree)
    (hmem : ∀ c owner, Change.conversation c owner ∈ changes →
      r.conversations.lookup c = some owner) :
    Chained r₀ r load (changes.foldl observeConversation s) := by
  induction changes generalizing s with
  | nil => exact h
  | cons change changes ih =>
    have hrest : ∀ c owner, Change.conversation c owner ∈ changes →
        r.conversations.lookup c = some owner :=
      fun c owner hc => hmem c owner (List.mem_cons_of_mem _ hc)
    have hone : (s.observeConversation change).Sound r := by
      suffices hlist : ([change].foldl observeConversation s).Sound r from hlist
      refine hs.observeConversations hext htree ?_
      intro c owner hc
      obtain rfl := List.mem_singleton.mp hc
      exact hmem c owner List.mem_cons_self
    refine ih ?_ hone hrest
    cases change with
    | task record => exact h
    | conversation c owner =>
      rw [observeConversation]
      split
      · exact h
      · exact h.setEdge hs (hmem c owner List.mem_cons_self)

/-! ### Tracking one task -/

section Track

variable (hs : s.Sound r) (haccepts : r.accepts (.task record) = true)

include hs haccepts

theorem Sound.grows_trackEnd : Grows s (s.trackEnd record) := by
  have hsame := trackEnd_same s record
  refine ⟨fun n e hn => ?_, hsame.queue⟩
  rw [hsame.known, Known.parent_end]
  split
  · rename_i heq
    rw [heq, Known.parent, Option.map_eq_some_iff] at hn
    obtain ⟨old, hold, rfl⟩ := hn
    rw [hs.lookup_node haccepts hold]
  · exact hn

theorem Sound.grows_setLive {unloaded : List TaskId}
    (hsame : SameButListing
      { s with live := Assoc.set s.live record.id record, unloaded := unloaded } s') :
    Grows s s' := by
  refine ⟨fun n e hn => ?_, hsame.queue⟩
  rw [hsame.known, Known.parent_setLive]
  split
  · rename_i heq
    rw [heq, Known.parent, Option.map_eq_some_iff] at hn
    obtain ⟨old, hold, rfl⟩ := hn
    rw [hs.lookup_node haccepts hold]
  · exact hn

end Track

/-- What `#validateOwners` gives for a publication from `r₀` to `r'`. -/
def OwnersOpen (r₀ r' : Records) : Prop :=
  ∀ o m, r₀.tasks.lookup o = none → r'.parent m = some (some (.task o)) →
    r'.isTerminal o = false

theorem Ended.not_parent (h : Ended r₀ r s id) (hext : r.Extends r')
    (hopen : OwnersOpen r₀ r') : r'.parent m ≠ some (some (.task id)) := by
  intro hm
  have hnot := hopen id m h.new hm
  rw [hext.isTerminal h.terminal] at hnot
  cases hnot

/-- The queue behind a task that was created and ended at once: nothing hangs from it. -/
theorem Sound.ended_trackEnd (hs : s.Sound r) (haccepts : r.accepts (.task record) = true)
    (hterminal : record.state.isTerminal = true) (hnew : r₀.tasks.lookup record.id = none)
    (hext : (r.applyChange (.task record)).Extends r') (htree : r'.IsTree)
    (hopen : OwnersOpen r₀ r') :
    Ended r₀ (r.applyChange (.task record)) (s.trackEnd record) record.id := by
  have hended : (r.applyChange (.task record)).isTerminal record.id = true := by
    rw [Records.isTerminal, lookup_applyChange, if_pos rfl]
    exact hterminal
  refine ⟨hnew, hended, mem_dropIfUnneeded ?_ ?_⟩
  · rw [(relist_same _ _).known]
    simp [Known.isLive, Assoc.lookup_erase]
  · have hsound := hs.trackEnd haccepts hterminal hext htree
    have hbelow : (s.trackEnd record).hasBelow (.task record.id) = false := by
      rw [Bool.eq_false_iff]
      intro hbelow
      obtain ⟨m, hm⟩ := hasBelow_iff.mp hbelow
      have hparent := hext.parent (hsound.parent (((hsound.exact.listed m).below _).mp hm).1)
      have hnot := hopen record.id m hnew hparent
      rw [hext.isTerminal hended] at hnot
      cases hnot
    rw [hasBelow, ← (dropIfUnneeded_same _ (.task record.id)).below]
    exact hbelow

/-- **A task ends.** What is above it may be swept, with it. -/
theorem Chained.trackEnd (h : Chained r₀ r load s) (hs : s.Sound r)
    (haccepts : r.accepts (.task record) = true) (hterminal : record.state.isTerminal = true)
    (hext₀ : r₀.Extends r) (hext : (r.applyChange (.task record)).Extends r') (htree : r'.IsTree)
    (hopen : OwnersOpen r₀ r')
    (hpassed : ∀ l ∈ load, ∀ id ∈ l.passed, (r₀.tasks.lookup id).isSome = true) :
    Chained r₀ (r.applyChange (.task record)) load (s.trackEnd record) := by
  have hsame := trackEnd_same s record
  have hgrows := hs.grows_trackEnd haccepts
  have hext' := Records.extends_applyChange haccepts
  have hnode : ∀ id, id ≠ record.id → (s.trackEnd record).node id = s.node id := by
    intro id hid
    rw [hsame.known, Known.node_end, if_neg hid]
  rcases hs.live_or_new haccepts with ⟨old, hlive, _⟩ | ⟨_, hnew⟩
  · -- it was known, so nothing becomes known that was not
    refine h.mono hgrows hext' ?_ hsame.unloaded
    intro id hid
    by_cases heq : id = record.id
    · rw [heq, Known.node, hlive]
      rfl
    · rw [← hnode id heq]
      exact hid
  · have hnew₀ : r₀.tasks.lookup record.id = none := by
      cases hold : r₀.tasks.lookup record.id with
      | none => rfl
      | some old =>
        obtain ⟨_, hold', _⟩ := hext₀.tasks _ _ hold
        rw [hnew] at hold'
        cases hold'
    refine ⟨fun id hid hnot => ?_, fun l hl id hmem hid => ?_⟩
    · by_cases heq : id = record.id
      · subst heq
        exact .inr (hs.ended_trackEnd haccepts hterminal hnew₀ hext htree hopen)
      · rw [hnode id heq] at hid
        rw [hsame.unloaded] at hnot
        exact (h.loaded id hid hnot).imp (fun hup => hup.mono hgrows.parent)
          (fun hended => hended.mono hgrows hext')
    · have hne : id ≠ record.id := by
        rintro rfl
        have hsome := hpassed l hl _ hmem
        rw [hnew₀] at hsome
        cases hsome
      rw [hnode id hne] at hid
      exact (h.passed l hl id hmem hid).mono hgrows.parent

theorem Chained.upTo_of_known (h : Chained r₀ r load s) (hs : s.Sound r) (hext : r.Extends r')
    (hopen : OwnersOpen r₀ r') (hknown : s.known p = true)
    (hp : ∀ o, p = .task o → ∃ m, r'.parent m = some (some (.task o))) : s.UpTo none p := by
  have htask : ∀ o m, (s.node o).isSome = true → o ∉ s.unloaded →
      r'.parent m = some (some (.task o)) → s.UpTo none (.task o) := by
    intro o m hnode hnot hm
    rcases h.loaded o hnode hnot with hup | hended
    · exact hup
    · exact absurd hm (hended.not_parent hext hopen)
  cases p with
  | task o =>
    simp only [known, Bool.and_eq_true, decide_eq_true_eq] at hknown
    obtain ⟨m, hm⟩ := hp o rfl
    exact htask o m hknown.1 hknown.2 hm
  | conversation c =>
    rw [known] at hknown
    cases hedge : s.edges.lookup c with
    | none => simp [hedge] at hknown
    | some owner =>
      have hparent : s.parent (.conversation c) = some (owner.map .task) := by
        rw [Known.parent, hedge, Option.map_some]
      cases owner with
      | none => exact .root hparent
      | some o =>
        simp only [hedge, Bool.and_eq_true, decide_eq_true_eq] at hknown
        exact .step hparent
          (htask o (.conversation c) hknown.1 hknown.2 (hext.parent (hs.parent hparent)))

theorem known_of_setLive (hord : Ordered s.toKnown) (hp : p.id < record.id)
    (h : known { s with live := Assoc.set s.live record.id record } p = true) :
    s.known p = true := by
  have hnode : ∀ o, o < record.id →
      Known.node { s.toKnown with live := Assoc.set s.live record.id record } o = s.node o := by
    intro o ho
    rw [Known.node_setLive, if_neg (Nat.ne_of_lt ho)]
  cases p with
  | task o =>
    rw [known, hnode o hp] at h
    exact h
  | conversation c =>
    rw [known] at h ⊢
    cases hedge : s.edges.lookup c with
    | none => simp [hedge] at h
    | some owner =>
      cases owner with
      | none => rfl
      | some o =>
        have hlt : o < c := hord (.conversation c) (.task o) (by
          rw [Known.parent, hedge, Option.map_some, Option.map_some])
        simp only [hedge] at h
        rw [hnode o (Nat.lt_trans hlt hp)] at h
        exact h

theorem mem_unloadedWith (h : id ∈ s.unloaded) : id ∈ s.unloadedWith record := by
  rw [unloadedWith, addTo]
  split
  · exact h
  · split
    · exact h
    · exact List.mem_append_left _ h

theorem known_of_not_mem_unloadedWith (h : record.id ∉ s.unloadedWith record) :
    known { s with live := Assoc.set s.live record.id record }
      (parentNode record.toTaskNode) = true := by
  rw [unloadedWith] at h
  split at h
  · assumption
  · rw [addTo] at h
    split at h
    · exact absurd ‹_› h
    · simp at h

/-- **A new task** is unloaded when its parent is not known. -/
theorem Chained.trackNew (h : Chained r₀ r load s) (hs : s.Sound r)
    (haccepts : r.accepts (.task record) = true) (hnew : r.tasks.lookup record.id = none)
    (hext₀ : r₀.Extends r) (hext : (r.applyChange (.task record)).Extends r') (htree : r'.IsTree)
    (hopen : OwnersOpen r₀ r')
    (hpassed : ∀ l ∈ load, ∀ id ∈ l.passed, (r₀.tasks.lookup id).isSome = true) :
    Chained r₀ (r.applyChange (.task record)) load (s.trackNew record) := by
  have hsame := trackNew_same s record
  have hgrows := hs.grows_setLive haccepts hsame
  have hext' := Records.extends_applyChange haccepts
  have hnode : ∀ id, id ≠ record.id → (s.trackNew record).node id = s.node id := by
    intro id hid
    rw [hsame.known, Known.node_setLive, if_neg hid]
  have hparent : r'.parent (.task record.id) = some (some (parentNode record.toTaskNode)) :=
    hext.parent (parent_applyChange r record)
  refine ⟨fun id hid hnot => ?_, fun l hl id hmem hid => ?_⟩
  · rw [hsame.unloaded] at hnot
    by_cases heq : id = record.id
    · subst heq
      have hknown := known_of_setLive (hs.ordered (hext'.trans hext) htree)
        (htree.parent_lt hparent).2 (known_of_not_mem_unloadedWith hnot)
      have hup := h.upTo_of_known hs (hext'.trans hext) hopen hknown fun o ho =>
        ⟨.task record.id, ho ▸ hparent⟩
      refine .inl (.step ?_ (hup.mono hgrows.parent))
      rw [hsame.known, Known.parent_setLive, if_pos rfl]
    · rw [hnode id heq] at hid
      exact (h.loaded id hid fun hmem => hnot (mem_unloadedWith hmem)).imp
        (fun hup => hup.mono hgrows.parent) (fun hended => hended.mono hgrows hext')
  · have hne : id ≠ record.id := by
      rintro rfl
      obtain ⟨old, hold⟩ := Option.isSome_iff_exists.mp (hpassed l hl _ hmem)
      obtain ⟨_, hold', _⟩ := hext₀.tasks _ _ hold
      rw [hnew] at hold'
      cases hold'
    rw [hnode id hne] at hid
    exact (h.passed l hl id hmem hid).mono hgrows.parent

theorem Chained.track (h : Chained r₀ r load s) (hs : s.Sound r)
    (haccepts : r.accepts (.task record) = true)
    (hext₀ : r₀.Extends r) (hext : (r.applyChange (.task record)).Extends r') (htree : r'.IsTree)
    (hopen : OwnersOpen r₀ r')
    (hpassed : ∀ l ∈ load, ∀ id ∈ l.passed, (r₀.tasks.lookup id).isSome = true) :
    Chained r₀ (r.applyChange (.task record)) load
      (s.track (s.live.lookup record.id) record) := by
  cases hterminal : record.state.isTerminal with
  | true =>
    rw [track_of_terminal hterminal]
    exact h.trackEnd hs haccepts hterminal hext₀ hext htree hopen hpassed
  | false =>
    rcases hs.live_or_new haccepts with ⟨old, hlive, _⟩ | ⟨hlive, hnew⟩
    · rw [hlive, track_some hterminal]
      have hsame : SameButListing
          { s with live := Assoc.set s.live record.id record, unloaded := s.unloaded }
          { s with live := Assoc.set s.live record.id record } := .refl _
      refine h.mono (hs.grows_setLive haccepts hsame) (Records.extends_applyChange haccepts) ?_ rfl
      intro id hid
      by_cases heq : id = record.id
      · rw [heq, Known.node, hlive]
        rfl
      · have hid' := hid
        change (Known.node { s.toKnown with live := Assoc.set s.live record.id record } id).isSome
          = true at hid'
        rw [Known.node_setLive, if_neg heq] at hid'
        exact hid'
    · rw [hlive, track_none hterminal]
      exact h.trackNew hs haccepts hnew hext₀ hext htree hopen hpassed

/-- The tasks of a publication, one after the other. -/
theorem Chained.observeTasks (h : Chained r₀ (withConversations r r') load s)
    (hs : s.Sound (withConversations r r')) (haccepts : r.acceptsAll changes = true)
    (hr' : r.apply changes = r') (hext₀ : r₀.Extends (withConversations r r'))
    (htree : r'.IsTree) (hopen : OwnersOpen r₀ r')
    (hpassed : ∀ l ∈ load, ∀ id ∈ l.passed, (r₀.tasks.lookup id).isSome = true) :
    Chained r₀ r' load (changes.foldl observeTask s) := by
  induction changes generalizing r s with
  | nil =>
    subst hr'
    exact h
  | cons change changes ih =>
    rw [Records.acceptsAll, Bool.and_eq_true] at haccepts
    cases change with
    | conversation c owner =>
      exact ih (r := r.applyChange (.conversation c owner)) h hs haccepts.2 hr' hext₀
    | task record =>
      have hrest := Records.extends_apply haccepts.2
      change Records.Extends _ (r.apply (.task record :: changes)) at hrest
      rw [hr'] at hrest
      have hext : ((withConversations r r').applyChange (.task record)).Extends r' :=
        ⟨fun _ _ hc => hc, hrest.tasks, hrest.terminal⟩
      refine ih (r := r.applyChange (.task record)) ?_ ?_ haccepts.2 hr' ?_
      · exact h.track hs haccepts.1 hext₀ hext htree hopen hpassed
      · exact hs.track haccepts.1 hext htree
      · have hone : (withConversations r r').accepts (.task record) = true := haccepts.1
        exact hext₀.trans (Records.extends_applyChange hone)

/-- **A publication up to its sweep.** -/
theorem Chained.observe (h : Chained r r load s) (hs : s.Sound r) (hrtree : r.IsTree)
    (haccepts : r.acceptsAll changes = true) (howners : r.ownersOpen changes = true)
    (htree : (r.apply changes).IsTree)
    (hpassed : ∀ l ∈ load, ∀ id ∈ l.passed, (r.tasks.lookup id).isSome = true) :
    Chained r (r.apply changes) load (s.observe changes) := by
  have hext := Records.extends_apply haccepts
  have hmid : (Index.withConversations r (r.apply changes)).Extends (r.apply changes) :=
    ⟨fun _ _ hc => hc, hext.tasks, hext.terminal⟩
  have hbefore : r.Extends (Index.withConversations r (r.apply changes)) :=
    ⟨hext.conversations, fun _ record h => ⟨record, h, rfl⟩, fun _ _ h _ => h⟩
  have hmem : ∀ c owner, Change.conversation c owner ∈ changes →
      (Index.withConversations r (r.apply changes)).conversations.lookup c = some owner :=
    fun c owner hc => Records.lookup_of_conversation_mem haccepts hc
  have hs' := hs.withConversations hext
  have hc' : Chained r (Index.withConversations r (r.apply changes)) load s :=
    ⟨fun id hid hnot => (h.loaded id hid hnot).imp_right fun hended =>
      hended.mono ⟨fun _ _ hn => hn, fun _ hn => hn⟩ hbefore, h.passed⟩
  exact Chained.observeTasks (hc'.observeConversations hs' hmid htree hmem)
    (hs'.observeConversations hmid htree hmem) haccepts rfl hbefore htree
    (fun o m hnew hm => Records.not_terminal_of_parent hrtree haccepts howners hnew hm) hpassed

/-! ## Chain loads keep chains whole -/

theorem Chained.pin (h : Chained r₀ r load s) (n : Node) : Chained r₀ r load (s.pin n) :=
  h.mono ⟨fun _ _ hn => hn, fun _ hn => hn⟩ (.refl r) (fun _ hid => hid) rfl

theorem Chained.unpin (h : Chained r₀ r load s) (n : Node) : Chained r₀ r load (s.unpin n) := by
  have hsame : SameButQueue { s with pins := s.pins.erase n } (s.unpin n) := by
    rw [Index.unpin]
    dsimp only
    split
    · exact ⟨rfl, rfl, rfl, rfl, rfl, fun _ hm => hm⟩
    · exact dropIfUnneeded_same _ n
  refine h.mono ⟨fun m e hm => ?_, hsame.queue⟩ (.refl r) (fun id hid => ?_) hsame.unloaded
  · rw [hsame.known]
    exact hm
  · rw [hsame.known] at hid
    exact hid

/-- A task that a chain load finds ended. -/
theorem Chained.settle (h : Chained r₀ r load s) (hs : s.Sound r)
    (hid : r.tasks.lookup id = some record) (hterminal : record.state.isTerminal = true)
    (hup : ∀ l ∈ load, l.up = some (.task id)) :
    Chained r₀ r load (s.settle id record.toTaskNode) := by
  have hsame := settle_same s id record.toTaskNode
  have hlive := hs.live_eq_none hid hterminal
  have hgrows : Grows s (s.settle id record.toTaskNode) := by
    refine ⟨fun n e hn => ?_, hsame.queue⟩
    rw [hsame.known, Known.parent_settle hlive]
    split
    · rename_i heq
      rw [heq] at hn
      have hr := hs.parent hn
      rw [Records.parent, hid, Option.map_some] at hr
      exact hr
    · exact hn
  have hnode : ∀ other, other ≠ id → (s.settle id record.toTaskNode).node other = s.node other := by
    intro other hother
    rw [hsame.known, Known.node_settle hlive, if_neg hother]
  refine ⟨fun other hother hnot => ?_, fun l hl other hpassed hother => ?_⟩
  · rw [hsame.unloaded] at hnot
    have hne : other ≠ id := by
      rintro rfl
      refine hnot ?_
      show other ∈ addTo s.unloaded other
      rw [addTo]
      split
      · assumption
      · simp
    have hnot' : other ∉ s.unloaded := by
      intro hmem
      refine hnot ?_
      show other ∈ addTo s.unloaded id
      rw [addTo]
      split
      · exact hmem
      · exact List.mem_append_left _ hmem
    rw [hnode other hne] at hother
    exact (h.loaded other hother hnot').imp (fun hu => hu.mono hgrows.parent)
      (fun hended => hended.mono hgrows (.refl r))
  · by_cases hne : other = id
    · exact .here (hne ▸ hup l hl)
    · rw [hnode other hne] at hother
      exact (h.passed l hl other hpassed hother).mono hgrows.parent

/-! ## Opening -/

/-- The tables that hold what `open` has tracked so far. -/
def trackedRecords (records : List TaskRecord) (r : Records) : Records :=
  records.foldl (fun r record => r.applyChange (.task record)) r

theorem conversations_trackedRecords (records : List TaskRecord) (r : Records) :
    (trackedRecords records r).conversations = r.conversations := by
  induction records generalizing r with
  | nil => rfl
  | cons record rest ih => exact ih _

theorem lookup_trackedRecords {records : List TaskRecord} (record : TaskRecord)
    (hall : ∀ other ∈ records, other.id = record.id → other = record) :
    (record ∈ records ∨ r.tasks.lookup record.id = some record →
      (trackedRecords records r).tasks.lookup record.id = some record) := by
  induction records generalizing r with
  | nil => exact fun h => h.resolve_left (by simp)
  | cons first rest ih =>
    intro h
    refine ih (fun other hother => hall other (List.mem_cons_of_mem _ hother)) ?_
    rw [lookup_applyChange]
    by_cases hid : record.id = first.id
    · exact .inr ((if_pos hid).trans (congrArg some (hall first List.mem_cons_self hid.symm)))
    · refine h.imp (fun hmem => ?_) (fun hold => (if_neg hid).trans hold)
      rcases List.mem_cons.mp hmem with rfl | hrest
      · exact absurd rfl hid
      · exact hrest

theorem Sound.trackAll {records : List TaskRecord} (h : s.Sound r) (htree : r'.IsTree)
    (hsub : ∀ id record, r.tasks.lookup id = some record → r'.tasks.lookup id = some record)
    (hconv : ∀ c owner, r.conversations.lookup c = some owner →
      r'.conversations.lookup c = some owner)
    (hrecords : ∀ record ∈ records, r'.tasks.lookup record.id = some record ∧
      record.state.isTerminal = false) :
    (records.foldl (fun s record => s.track none record) s).Sound (trackedRecords records r) ∧
      ∀ id record, (trackedRecords records r).tasks.lookup id = some record →
        r'.tasks.lookup id = some record := by
  induction records generalizing r s with
  | nil => exact ⟨h, hsub⟩
  | cons record rest ih =>
    obtain ⟨hlookup, hterminal⟩ := hrecords record List.mem_cons_self
    have haccepts : r.accepts (.task record) = true := by
      rw [Records.accepts]
      cases hold : r.tasks.lookup record.id with
      | none => rfl
      | some old =>
        obtain rfl : record = old := by simpa using hlookup.symm.trans (hsub _ _ hold)
        simp [hterminal]
    have hsub' : ∀ id other, (r.applyChange (.task record)).tasks.lookup id = some other →
        r'.tasks.lookup id = some other := by
      intro id other hother
      rw [lookup_applyChange] at hother
      split at hother
      · rename_i heq
        rw [heq, hlookup, hother]
      · exact hsub id other hother
    have hext : (r.applyChange (.task record)).Extends r' :=
      ⟨hconv, fun id other hother => ⟨other, hsub' id other hother, rfl⟩,
        fun id other hother _ => hsub' id other hother⟩
    have hnew := h.trackNew haccepts hterminal hext htree
    rw [← track_none hterminal] at hnew
    exact ih hnew hsub' hconv fun other hother => hrecords other (List.mem_cons_of_mem _ hother)

/-- At first no chain is loaded. -/
theorem unloaded_trackAll {records : List TaskRecord} (hedges : s.edges = [])
    (hall : ∀ id, (s.node id).isSome = true → id ∈ s.unloaded)
    (hrecords : ∀ record ∈ records, record.state.isTerminal = false ∧
      (parentNode record.toTaskNode).id < record.id) :
    ∀ id, ((records.foldl (fun s record => s.track none record) s).node id).isSome = true →
      id ∈ (records.foldl (fun s record => s.track none record) s).unloaded := by
  induction records generalizing s with
  | nil => exact hall
  | cons record rest ih =>
    obtain ⟨hterminal, hlt⟩ := hrecords record List.mem_cons_self
    have hsame := trackNew_same s record
    rw [List.foldl_cons, track_none hterminal]
    refine ih ?_ ?_ fun other hother => hrecords other (List.mem_cons_of_mem _ hother)
    · rw [hsame.known]
      exact hedges
    · intro id hid
      rw [hsame.known, Known.node_setLive] at hid
      rw [hsame.unloaded]
      by_cases heq : id = record.id
      · subst heq
        by_contra hnot
        have hknown := known_of_not_mem_unloadedWith hnot
        cases hp : parentNode record.toTaskNode with
        | conversation c =>
          rw [hp, known] at hknown
          simp [hedges] at hknown
        | task o =>
          rw [hp] at hlt
          have hne : o ≠ record.id := Nat.ne_of_lt hlt
          simp only [hp, known, Known.node_setLive, if_neg hne, Bool.and_eq_true,
            decide_eq_true_eq] at hknown
          exact hknown.2 (hall o hknown.1)
      · rw [if_neg heq] at hid
        exact mem_unloadedWith (hall id hid)

theorem mem_openedRecords (htree : r.IsTree) (record : TaskRecord) :
    (record ∈ liveStatuses.flatMap fun status => (r.tasks.map (·.2)).filter (status ·.state)) ↔
      r.tasks.lookup record.id = some record ∧ record.state.isTerminal = false := by
  have hmem : record ∈ r.tasks.map (·.2) ↔ r.tasks.lookup record.id = some record := by
    rw [List.mem_map]
    constructor
    · rintro ⟨⟨id, record'⟩, hentry, rfl⟩
      have hid : record'.id = id := (htree.tasks _ hentry).1
      rw [hid]
      exact Assoc.lookup_of_mem htree.nodup hentry
    · intro hlookup
      exact ⟨_, Assoc.mem_of_lookup hlookup, rfl⟩
  simp only [List.mem_flatMap, List.mem_filter, hmem]
  constructor
  · rintro ⟨status, hstatus, hlookup, hstate⟩
    refine ⟨hlookup, ?_⟩
    simp only [liveStatuses, List.mem_cons, List.not_mem_nil, or_false] at hstatus
    cases hs : record.state with
    | terminal outcome =>
      rw [hs] at hstate
      rcases hstatus with rfl | rfl | rfl | rfl | rfl <;> cases hstate
    | _ => rfl
  · rintro ⟨hlookup, hterminal⟩
    cases hs : record.state with
    | terminal outcome =>
      rw [hs] at hterminal
      cases hterminal
    | _ => simp [liveStatuses, hlookup]

/-- **What `open` makes of the records is sound.** -/
theorem sound_opened (htree : r.IsTree) : r.opened.Sound r := by
  have hempty : Index.empty.Sound { tasks := [], conversations := [] } := by
    refine ⟨by simp [Index.empty], by simp [Index.empty], by simp [Index.empty],
      by simp [Index.empty], ⟨fun n => ⟨?_, ?_⟩, by simp [Index.empty]⟩⟩
    · intro p
      cases n <;> simp [Index.empty, Known.parent, Known.node]
    · rintro c rfl
      simp [Index.empty, Known.parent]
  have hrecords := fun record hmem => (mem_openedRecords htree record).mp hmem
  obtain ⟨hsound, hsub⟩ := hempty.trackAll htree (by simp) (by simp) hrecords
  refine ⟨fun id record => ?_, fun id node hid => ?_, fun c owner hc => ?_, fun n hn => ?_,
    hsound.exact⟩
  · rw [Records.opened, hsound.live]
    constructor
    · exact fun h => ⟨hsub id record h.1, h.2⟩
    · rintro ⟨hlookup, hterminal⟩
      obtain rfl : record.id = id := (htree.task hlookup).1
      refine ⟨lookup_trackedRecords record ?_ (.inl ((mem_openedRecords htree record).mpr
        ⟨hlookup, hterminal⟩)), hterminal⟩
      intro other hother hid
      have hlookup' := (hrecords other hother).1
      rw [hid, hlookup] at hlookup'
      simpa using hlookup'.symm
  · obtain ⟨record, hlookup, hrest⟩ := hsound.settled id node hid
    exact ⟨record, hsub id record hlookup, hrest⟩
  · have hedge := hsound.edges c owner hc
    rw [conversations_trackedRecords] at hedge
    cases hedge
  · have hpin := hsound.pins n hn
    cases n with
    | conversation c =>
      rw [Records.parent, conversations_trackedRecords] at hpin
      cases hpin
    | task id =>
      rw [Records.parent, Option.isSome_map] at hpin ⊢
      obtain ⟨record, hrecord⟩ := Option.isSome_iff_exists.mp hpin
      rw [hsub id record hrecord]
      rfl

theorem chained_opened (htree : r.IsTree) : Chained r r none r.opened := by
  have hall := unloaded_trackAll (s := Index.empty) rfl
    (by simp [Index.empty, Known.node]) fun record hmem =>
      have hrecord := (mem_openedRecords htree record).mp hmem
      ⟨hrecord.2, (htree.task hrecord.1).2.2⟩
  exact ⟨fun id hid hnot => absurd (hall id hid) hnot, by simp⟩

end Index

/-! ## Steps -/

namespace System

variable {s : System} {action : Action}

structure Inv (s : System) : Prop where
  tree : s.records.IsTree
  sound : s.index.Sound s.records

variable {r : Records}

theorem inv_opened (htree : r.IsTree) : (opened r).Inv :=
  ⟨htree, Index.sound_opened htree⟩

/-- What a chain load does with one record. -/
theorem install_cases (r : Records) (index : Index) (load : Load) :
    load.install r index = (index, none) ∨
    (∃ id record, load.up = some (.task id) ∧ r.tasks.lookup id = some record ∧
      load.install r index =
        (if record.state.isTerminal then (index.settle id record.toTaskNode).pin (.task id)
          else index,
        some { load with
          passed := load.passed ++ [id]
          up := some (parentNode record.toTaskNode)
          reading := false })) ∨
    (∃ c owner, load.up = some (.conversation c) ∧ (r.conversations.lookup c).getD none = owner ∧
      load.install r index =
        ((index.setEdge c owner).pin (.conversation c),
        some { load with up := owner.map .task, reading := false })) := by
  cases hup : load.up with
  | none => exact .inl (by simp [Load.install, hup])
  | some n =>
    cases n with
    | conversation c => exact .inr (.inr ⟨c, _, rfl, rfl, by simp [Load.install, hup]⟩)
    | task id =>
      cases hrecord : r.tasks.lookup id with
      | none => exact .inl (by simp [Load.install, hup, hrecord])
      | some record =>
        exact .inr (.inl ⟨id, record, rfl, hrecord, by simp [Load.install, hup, hrecord]⟩)

variable {load : Load} {c : ConversationId}

theorem readable_conversation (h : readable r load = true) (hup : load.up = some (.conversation c)) :
    (r.conversations.lookup c).isSome = true := by
  rw [readable, hup] at h
  exact h

theorem Inv.install (h : s.Inv) (hreadable : readable s.records load = true) :
    (load.install s.records s.index).1.Sound s.records := by
  have hext := Records.Extends.refl s.records
  rcases install_cases s.records s.index load with
    heq | ⟨id, record, _, hrecord, heq⟩ | ⟨c, owner, hup, howner, heq⟩
  · rw [heq]
    exact h.sound
  · rw [heq]
    dsimp only
    split
    · rename_i hterminal
      refine (h.sound.settle hext h.tree hrecord hterminal).pin ?_
      rw [Records.parent, hrecord]
      rfl
    · exact h.sound
  · rw [heq]
    obtain ⟨owner', howner'⟩ := Option.isSome_iff_exists.mp (readable_conversation hreadable hup)
    obtain rfl : owner' = owner := by simpa [howner'] using howner
    refine (h.sound.setEdge hext h.tree howner').pin ?_
    rw [Records.parent, howner']
    rfl

/-- **Every step keeps the index sound.** -/
theorem inv_step (h : s.Inv) (hvalid : s.Valid action) : (s.step action).Inv := by
  cases action with
  | publish changes =>
    obtain ⟨haccepts, _, htree, _⟩ := hvalid
    exact ⟨htree, (h.sound.observe haccepts htree).sweep⟩
  | loadChain start overlay => exact ⟨h.tree, h.sound⟩
  | turn =>
    rw [step]
    split
    · exact h
    · split
      · exact ⟨h.tree, h.sound⟩
      · exact ⟨h.tree, h.sound⟩
      · exact ⟨h.tree, h.sound.setUnloaded _⟩
  | install =>
    obtain ⟨load, hload, _, hreadable⟩ := hvalid
    rw [step, Option.mem_def.mp hload]
    exact ⟨h.tree, h.install hreadable⟩
  | fail => exact ⟨h.tree, h.sound⟩
  | jobEnd node => exact ⟨h.tree, h.sound.unpin node⟩
  | sweep => exact ⟨h.tree, h.sound.sweep⟩

/-! ## What the chains need -/

structure Whole (s : System) : Prop where
  chained : Index.Chained s.records s.records s.load s.index
  staged : ∀ load ∈ s.load, load.overlay.staged s.records = true
  passed : ∀ load ∈ s.load, ∀ id ∈ load.passed, (s.records.tasks.lookup id).isSome = true
  /-- A load that passed a task is at a committed node. -/
  up : ∀ load ∈ s.load, load.passed ≠ [] → ∀ n ∈ load.up, (s.records.parent n).isSome = true

theorem whole_opened (htree : r.IsTree) : (opened r).Whole :=
  ⟨Index.chained_opened htree, by simp [opened], by simp [opened], by simp [opened]⟩

theorem not_ended {index : Index} {id : TaskId} : ¬Index.Ended r r index id := by
  rintro ⟨hnew, hterminal, _⟩
  rw [Records.isTerminal, hnew] at hterminal
  cases hterminal

theorem Whole.upTo (h : s.Whole) {id : TaskId} (hid : (s.index.node id).isSome = true)
    (hnot : id ∉ s.index.unloaded) : s.index.UpTo none (.task id) :=
  (h.chained.loaded id hid hnot).resolve_right not_ended

/-- A sweep that spares the chains. -/
theorem chained_sweep {r₀ : Records} {index : Index} (h : Index.Chained r₀ r s.load index)
    (hkeeps : s.KeepsChains index)
    (hended : ∀ id, Index.Ended r₀ r index id → index.Swept (.task id)) :
    Index.Chained r r s.load index.sweep := by
  have hf := Index.sweep_forgets index
  have hkept : ∀ id, (index.sweep.node id).isSome = true →
      ¬index.Swept (.task id) ∧ (index.node id).isSome = true := by
    intro id hid
    have hnot : ¬index.Swept (.task id) := by
      intro hswept
      rw [hf.node_gone id hswept] at hid
      cases hid
    exact ⟨hnot, hf.node_kept id hnot ▸ hid⟩
  refine ⟨fun id hid hnot => ?_, fun l hl id hpassed hid => ?_⟩
  · obtain ⟨hswept, hknown⟩ := hkept id hid
    have hloaded : id ∉ index.unloaded := fun hmem => hnot ((hf.unloaded id).mpr ⟨hmem, hswept⟩)
    have hup := (h.loaded id hknown hloaded).resolve_right fun he => hswept (hended id he)
    exact .inl (hup.of_forgets hf hswept ((hkeeps id hknown hswept).1 hloaded))
  · obtain ⟨hswept, hknown⟩ := hkept id hid
    exact (h.passed l hl id hpassed hknown).of_forgets hf hswept
      ((hkeeps id hknown hswept).2 l hl hpassed)

theorem swept_of_ended {r' : Records} {index : Index} {id : TaskId} (hsound : index.Sound r')
    (hpins : ∀ n ∈ index.pins, (r.parent n).isSome = true) (hopen : Index.OwnersOpen r r')
    (h : Index.Ended r r' index id) : index.Swept (.task id) := by
  refine ⟨h.queued, ?_⟩
  have hbelow : index.hasBelow (.task id) = false := by
    rw [Bool.eq_false_iff]
    intro hbelow
    obtain ⟨m, hm⟩ := Index.hasBelow_iff.mp hbelow
    exact h.not_parent (.refl r') hopen (hsound.parent (((hsound.exact.listed m).below _).mp hm).1)
  have hpin : .task id ∉ index.pins := by
    intro hpin
    have hsome := hpins _ hpin
    rw [Records.parent, h.new] at hsome
    cases hsome
  have hlive : index.isLive (.task id) = false := by
    rw [Known.isLive, Option.isSome_eq_false_iff, Option.isNone_iff_eq_none]
    cases hlookup : index.live.lookup id with
    | none => rfl
    | some record =>
      obtain ⟨hrecord, hnot⟩ := (hsound.live id record).mp hlookup
      have hterminal := h.terminal
      simp only [Records.isTerminal, hrecord, hnot, Bool.false_eq_true] at hterminal
  simp [Index.drops, hbelow, hpin, hlive]

theorem pins_observe (index : Index) (changes : List Change) :
    (index.observe changes).pins = index.pins := by
  have hone : ∀ (index : Index) change, (index.observeConversation change).pins = index.pins ∧
      (index.observeTask change).pins = index.pins := by
    intro index change
    cases change with
    | conversation c owner =>
      refine ⟨?_, rfl⟩
      rw [Index.observeConversation]
      split
      · rfl
      · exact (Index.setEdge_same index c owner).pins
    | task record =>
      refine ⟨rfl, ?_⟩
      rw [Index.observeTask]
      cases hterminal : record.state.isTerminal with
      | true =>
        rw [Index.track_of_terminal hterminal]
        exact (Index.trackEnd_same index record).pins
      | false =>
        cases index.live.lookup record.id with
        | some old => rw [Index.track_some hterminal]
        | none =>
          rw [Index.track_none hterminal]
          exact (Index.trackNew_same index record).pins
  have hall : ∀ index, (changes.foldl Index.observeConversation index).pins = index.pins ∧
      (changes.foldl Index.observeTask index).pins = index.pins := by
    induction changes with
    | nil => exact fun _ => ⟨rfl, rfl⟩
    | cons change changes ih =>
      intro index
      exact ⟨(ih _).1.trans (hone index change).1, (ih _).2.trans (hone index change).2⟩
  exact (hall _).2.trans (hall index).1

theorem Whole.publish (h : s.Whole) (hinv : s.Inv) {changes : List Change}
    (hvalid : s.Valid (.publish changes)) (hkeeps : s.Keeps (.publish changes)) :
    (s.step (.publish changes)).Whole := by
  obtain ⟨haccepts, howners, htree, hstaged⟩ := hvalid
  have hext := Records.extends_apply haccepts
  have hopen : Index.OwnersOpen s.records (s.records.apply changes) := fun o m hnew hm =>
    Records.not_terminal_of_parent hinv.tree haccepts howners hnew hm
  have hchained := h.chained.observe hinv.sound hinv.tree haccepts howners htree h.passed
  refine ⟨chained_sweep hchained hkeeps fun id hended => ?_, hstaged, ?_, ?_⟩
  · exact swept_of_ended (hinv.sound.observe haccepts htree)
      (pins_observe s.index changes ▸ hinv.sound.pins) hopen hended
  · intro load hload id hid
    obtain ⟨record, hrecord⟩ := Option.isSome_iff_exists.mp (h.passed load hload id hid)
    obtain ⟨record', hrecord', _⟩ := hext.tasks id record hrecord
    exact Option.isSome_iff_exists.mpr ⟨record', hrecord'⟩
  · intro load hload hpassed n hn
    obtain ⟨e, he⟩ := Option.isSome_iff_exists.mp (h.up load hload hpassed n hn)
    exact Option.isSome_iff_exists.mpr ⟨e, hext.parent he⟩

/-- What a chain load does in one turn. -/
theorem turn_cases (index : Index) (load : Load) :
    (load.turn index = .reads) ∨
    (∃ id node, load.up = some (.task id) ∧ index.node id = some node ∧ id ∈ index.unloaded ∧
      load.turn index =
        .walks { load with passed := load.passed ++ [id], up := some (parentNode node) }) ∨
    (∃ c owner, load.up = some (.conversation c) ∧ index.edge load.overlay c = some owner ∧
      load.turn index = .walks { load with up := owner.map .task }) ∨
    (load.turn index = .ends ∧
      (load.up = none ∨ ∃ id, load.up = some (.task id) ∧
        ((index.node id).isSome = true ∧ id ∉ index.unloaded ∨
          index.node id = none ∧ (load.overlay.tasks.lookup id).isSome = true))) := by
  cases hup : load.up with
  | none => exact .inr (.inr (.inr ⟨by simp [Load.turn, hup], .inl rfl⟩))
  | some n =>
    cases n with
    | conversation c =>
      cases hedge : index.edge load.overlay c with
      | none => exact .inl (by simp [Load.turn, hup, hedge])
      | some owner =>
        exact .inr (.inr (.inl ⟨c, owner, rfl, hedge, by simp [Load.turn, hup, hedge]⟩))
    | task id =>
      cases hnode : index.node id with
      | none =>
        by_cases hover : (load.overlay.tasks.lookup id).isSome = true
        · exact .inr (.inr (.inr ⟨by simp [Load.turn, hup, hnode, hover],
            .inr ⟨id, rfl, .inr ⟨hnode, hover⟩⟩⟩))
        · exact .inl (by simp [Load.turn, hup, hnode, hover])
      | some node =>
        by_cases hmem : id ∈ index.unloaded
        · exact .inr (.inl ⟨id, node, rfl, hnode, hmem, by simp [Load.turn, hup, hnode, hmem]⟩)
        · exact .inr (.inr (.inr ⟨by simp [Load.turn, hup, hnode, hmem],
            .inr ⟨id, rfl, .inl ⟨by simp [hnode], hmem⟩⟩⟩))

theorem Whole.passTask (h : s.Whole) (hinv : s.Inv) (hload : s.load = some load) {index : Index}
    {id : TaskId} {record : TaskRecord} (hup : load.up = some (.task id))
    (hrecord : s.records.tasks.lookup id = some record)
    (hchained : Index.Chained s.records s.records s.load index)
    (hparent : index.parent (.task id) = some (some (parentNode record.toTaskNode)))
    (reading : Bool) :
    Whole { s with
      index := index
      load := some { load with
        passed := load.passed ++ [id]
        up := some (parentNode record.toTaskNode)
        reading := reading } } := by
  refine ⟨⟨hchained.loaded, ?_⟩, ?_, ?_, ?_⟩
  · rintro l ⟨⟩ other hother hknown
    rcases List.mem_append.mp hother with hold | hlast
    · have hupTo := hchained.passed load hload other hold hknown
      rw [hup] at hupTo
      exact hupTo.advance hparent
    · obtain rfl := List.mem_singleton.mp hlast
      exact .step hparent (.here rfl)
  · rintro l ⟨⟩
    exact h.staged load hload
  · rintro l ⟨⟩ other hother
    rcases List.mem_append.mp hother with hold | hlast
    · exact h.passed load hload other hold
    · obtain rfl := List.mem_singleton.mp hlast
      exact Option.isSome_iff_exists.mpr ⟨record, hrecord⟩
  · rintro l ⟨⟩ _ n ⟨⟩
    exact (hinv.tree.task hrecord).2.1

theorem edge_of_staged {overlay : Overlay} (index : Index) (hstaged : overlay.staged r = true)
    (hc : (r.conversations.lookup c).isSome = true) :
    index.edge overlay c = index.edges.lookup c := by
  rw [Known.edge]
  cases hedge : overlay.edges.lookup c with
  | none => rfl
  | some owner =>
    rw [Overlay.staged, Bool.and_eq_true, List.all_eq_true] at hstaged
    have hnone := hstaged.1 (c, owner) (Assoc.mem_of_lookup hedge)
    rw [Option.isNone_iff_eq_none] at hnone
    rw [hnone] at hc
    cases hc

theorem Whole.passConversation (h : s.Whole) (hinv : s.Inv) (hload : s.load = some load)
    {index : Index} {owner : Option TaskId} (hup : load.up = some (.conversation c))
    (hchained : Index.Chained s.records s.records s.load index)
    (hedge : load.passed ≠ [] → index.edges.lookup c = some owner ∧
      s.records.conversations.lookup c = some owner) (reading : Bool) :
    Whole { s with
      index := index
      load := some { load with up := owner.map .task, reading := reading } } := by
  refine ⟨⟨hchained.loaded, ?_⟩, ?_, ?_, ?_⟩
  · rintro l ⟨⟩ other hother hknown
    have hupTo := hchained.passed load hload other hother hknown
    rw [hup] at hupTo
    refine hupTo.advance ?_
    rw [Known.parent, (hedge (List.ne_nil_of_mem hother)).1, Option.map_some]
  · rintro l ⟨⟩
    exact h.staged load hload
  · rintro l ⟨⟩ other hother
    exact h.passed load hload other hother
  · rintro l ⟨⟩ hpassed n hn
    have howner := (hedge hpassed).2
    obtain ⟨o, rfl, rfl⟩ := Option.map_eq_some_iff.mp (Option.mem_def.mp hn)
    exact (hinv.tree.conversation howner).1

/-- **A chain load that ends** has made its chain whole. -/
theorem Whole.finish (h : s.Whole) (hinv : s.Inv) (hload : s.load = some load)
    (hends : load.up = none ∨ ∃ id, load.up = some (.task id) ∧
      ((s.index.node id).isSome = true ∧ id ∉ s.index.unloaded ∨
        s.index.node id = none ∧ (load.overlay.tasks.lookup id).isSome = true)) :
    Whole { s with index := load.finish s.index, load := none } := by
  refine ⟨⟨fun id hid hnot => .inl ?_, by simp⟩, by simp, by simp, by simp⟩
  by_cases hunloaded : id ∈ s.index.unloaded
  · -- one of the tasks it passed
    have hpassed : id ∈ load.passed := by
      by_contra hpassed
      exact hnot (List.mem_filter.mpr ⟨hunloaded, by simpa using hpassed⟩)
    have hup : s.index.UpTo load.up (.task id) := h.chained.passed load hload id hpassed hid
    rcases hends with hnone | ⟨top, htop, ⟨hknown, hloaded⟩ | ⟨hunknown, hover⟩⟩
    · rw [hnone] at hup
      exact hup
    · rw [htop] at hup
      exact (h.upTo hknown hloaded).trans hup
    · -- the task it stands at is committed and not terminal, so it is live
      exfalso
      have hcommitted := h.up load hload (List.ne_nil_of_mem hpassed) (.task top) htop
      rw [Records.parent, Option.isSome_map] at hcommitted
      obtain ⟨record, hrecord⟩ := Option.isSome_iff_exists.mp hcommitted
      have hstaged := h.staged load hload
      rw [Overlay.staged, Bool.and_eq_true, List.all_eq_true, List.all_eq_true] at hstaged
      obtain ⟨candidate, hcandidate⟩ := Option.isSome_iff_exists.mp hover
      have hnot := hstaged.2 (top, candidate) (Assoc.mem_of_lookup hcandidate)
      simp only [Records.isTerminal, hrecord, Bool.not_eq_true'] at hnot
      have hlive := (hinv.sound.live top record).mpr ⟨hrecord, hnot⟩
      rw [Known.node, hlive] at hunknown
      cases hunknown
  · exact h.upTo hid hunloaded

theorem Whole.install (h : s.Whole) (hinv : s.Inv) (hvalid : s.Valid .install) :
    (s.step .install).Whole := by
  obtain ⟨load, hload, _, hreadable⟩ := hvalid
  rw [Option.mem_def] at hload
  rw [step, hload]
  dsimp only
  rcases install_cases s.records s.index load with
    heq | ⟨id, record, hup, hrecord, heq⟩ | ⟨c, owner, hup, howner, heq⟩
  · rw [heq]
    exact ⟨⟨h.chained.loaded, by simp⟩, by simp, by simp, by simp⟩
  · rw [heq]
    cases hterminal : record.state.isTerminal with
    | true =>
      have hsettled := h.chained.settle hinv.sound hrecord hterminal (by
        intro l hl
        obtain rfl : load = l := by simpa using hload.symm.trans hl
        exact hup)
      refine h.passTask hinv hload hup hrecord (hsettled.pin _) ?_ false
      show (s.index.settle id record.toTaskNode).parent (.task id) = _
      rw [(Index.settle_same s.index id record.toTaskNode).known,
        Known.parent_settle (hinv.sound.live_eq_none hrecord hterminal), if_pos rfl]
    | false =>
      refine h.passTask hinv hload hup hrecord h.chained ?_ false
      rw [Known.parent, Known.node, (hinv.sound.live id record).mpr ⟨hrecord, hterminal⟩]
      rfl
  · rw [heq]
    obtain ⟨owner', howner'⟩ := Option.isSome_iff_exists.mp (readable_conversation hreadable hup)
    obtain rfl : owner' = owner := by simpa [howner'] using howner
    have hchained := (h.chained.setEdge hinv.sound howner').pin (.conversation c)
    refine h.passConversation hinv hload hup hchained (fun _ => ⟨?_, howner'⟩) false
    show (s.index.setEdge c owner').edges.lookup c = some owner'
    rw [(Index.setEdge_same s.index c owner').known]
    exact Assoc.lookup_set.trans (if_pos rfl)

theorem Whole.turn (h : s.Whole) (hinv : s.Inv) : (s.step .turn).Whole := by
  rw [step]
  split
  · exact h
  · rename_i load hload
    rcases turn_cases s.index load with
      heq | ⟨id, node, hup, hnode, hmem, heq⟩ | ⟨c, owner, hup, hedge, heq⟩ | ⟨heq, hends⟩
    · rw [heq]
      refine ⟨⟨h.chained.loaded, ?_⟩, ?_, ?_, ?_⟩
      · rintro l ⟨⟩
        exact h.chained.passed load hload
      · rintro l ⟨⟩
        exact h.staged load hload
      · rintro l ⟨⟩
        exact h.passed load hload
      · rintro l ⟨⟩
        exact h.up load hload
    · rw [heq]
      obtain ⟨record, hrecord, rfl⟩ := hinv.sound.node hnode
      exact h.passTask hinv hload hup hrecord h.chained
        (by rw [Known.parent, hnode, Option.map_some]) load.reading
    · rw [heq]
      refine h.passConversation hinv hload hup h.chained (fun hpassed => ?_) load.reading
      have hcommitted := h.up load hload hpassed (.conversation c) hup
      rw [Records.parent, Option.isSome_map] at hcommitted
      rw [edge_of_staged s.index (h.staged load hload) hcommitted] at hedge
      exact ⟨hedge, hinv.sound.edges c owner hedge⟩
    · rw [heq]
      exact h.finish hinv hload hends

/-- **Every step that keeps the chains** leaves the loaded ones whole. -/
theorem whole_step (h : s.Whole) (hinv : s.Inv) (hvalid : s.Valid action)
    (hkeeps : s.Keeps action) : (s.step action).Whole := by
  cases action with
  | publish changes => exact h.publish hinv hvalid hkeeps
  | loadChain start overlay =>
    exact ⟨⟨h.chained.loaded, by rintro l ⟨⟩; simp⟩, by rintro l ⟨⟩; exact hvalid.2,
      by rintro l ⟨⟩; simp, by rintro l ⟨⟩; simp⟩
  | turn => exact h.turn hinv
  | install => exact h.install hinv hvalid
  | fail => exact ⟨⟨h.chained.loaded, by rintro l ⟨⟩⟩, by rintro l ⟨⟩, by rintro l ⟨⟩, by rintro l ⟨⟩⟩
  | jobEnd node => exact ⟨h.chained.unpin node, h.staged, h.passed, h.up⟩
  | sweep =>
    exact ⟨chained_sweep h.chained hkeeps fun id hended => absurd hended not_ended, h.staged,
      h.passed, h.up⟩

end System

/-! ## Walks down -/

namespace Index

variable {s : Index} {n m p : Node} {id : TaskId}

def up (s : Index) (n : Node) : Option Node :=
  (s.parent n).join

theorem up_eq_some : s.up n = some p ↔ s.parent n = some (some p) := by
  rw [up, Option.join_eq_some_iff]

theorem Exact.mem_below (h : s.Exact) :
    (p, n) ∈ s.below ↔ s.up n = some p ∧ s.needed n = true := by
  rw [up_eq_some]
  exact (h.listed n).below p

theorem Exact.needed_up (h : s.Exact) (hup : s.up n = some p) (hn : s.needed n = true) :
    s.needed p = true := by
  have hbelow := hasBelow_iff.mpr ⟨n, h.mem_below.mpr ⟨hup, hn⟩⟩
  rw [needed, hbelow, Bool.or_true]

theorem Exact.needed_of_climbs (h : s.Exact) {enter : Node → Bool}
    (hclimbs : Forest.Climbs s.up enter n m) (hn : s.needed n = true) : s.needed m = true := by
  induction hclimbs with
  | base hup => exact h.needed_up hup hn
  | step hup _ _ ih => exact ih (h.needed_up hup hn)

theorem needed_of_isLive (h : s.isLive n = true) : s.needed n = true := by
  rw [needed, h, Bool.true_or]

/-- What is listed below each node is a forest. -/
theorem Exact.isForest (h : s.Exact) (hord : Ordered s.toKnown) :
    Forest.IsForest s.below Node.id := by
  refine ⟨h.nodup, fun p q c hp hq => ?_, fun p c hp => ?_⟩
  · have heq := (h.mem_below.mp hp).1.symm.trans (h.mem_below.mp hq).1
    simpa using heq
  · exact hord c p (up_eq_some.mp (h.mem_below.mp hp).1)

theorem fields_empty (s : Index) (id : TaskId) : s.fields .empty id = s.node id := by
  rw [fields, Known.node]
  rfl

theorem yield_id {n : Node} {y : Yield} (h : s.yield .empty n = some y) : n = .task y.id := by
  cases n with
  | conversation c => cases h
  | task id =>
    rw [yield, Option.map_eq_some_iff] at h
    obtain ⟨node, _, rfl⟩ := h
    rfl

theorem exists_yield_iff
    (hlive : ∀ id record, s.live.lookup id = some record → record.state.isTerminal = false)
    {nodes : List Node} :
    (∃ y ∈ nodes.filterMap (s.yield .empty), y.id = id ∧ y.live.isSome = true) ↔
      .task id ∈ nodes ∧ s.isLive (.task id) = true := by
  constructor
  · rintro ⟨y, hy, rfl, hsome⟩
    obtain ⟨n, hn, hyield⟩ := List.mem_filterMap.mp hy
    obtain rfl := yield_id hyield
    refine ⟨hn, ?_⟩
    rw [yield, Option.map_eq_some_iff] at hyield
    obtain ⟨node, _, hy⟩ := hyield
    rw [← hy] at hsome
    obtain ⟨record, hrecord⟩ := Option.isSome_iff_exists.mp hsome
    rw [Option.filter_eq_some_iff] at hrecord
    exact Option.isSome_iff_exists.mpr ⟨record, hrecord.1⟩
  · rintro ⟨hmem, htask⟩
    obtain ⟨record, hrecord⟩ := Option.isSome_iff_exists.mp htask
    have hyield : s.yield .empty (.task id) = some
        { id, node := record.toTaskNode, live := some record } := by
      rw [yield, fields_empty, Known.node, hrecord, Option.map_some]
      have hrec : s.record .empty id = some record := hrecord
      rw [hrec, Option.filter_some, hlive id record hrecord]
      rfl
    exact ⟨_, List.mem_filterMap.mpr ⟨_, hmem, hyield⟩, rfl, rfl⟩

/-- A walk down over an exact index ends, yields no task twice, and yields the live tasks from which
the known way up comes to its start. -/
theorem Exact.walkDown (h : s.Exact) (hord : Ordered s.toKnown)
    (hlive : ∀ id record, s.live.lookup id = some record → record.state.isTerminal = false)
    (crossBackground : Bool) (enter : TaskId → Bool) (start : Node) :
    ∃ yields, (∀ fuel, s.below.length < fuel →
        s.walkDown .empty crossBackground enter fuel start = some yields) ∧
      (yields.map (·.id)).Nodup ∧
      ∀ id, (∃ y ∈ yields, y.id = id ∧ y.live.isSome = true) ↔
        s.isLive (.task id) = true ∧
          Forest.Climbs s.up (s.enters .empty crossBackground enter) (.task id) start := by
  obtain ⟨nodes, hwalk, hnodup, hmem⟩ :=
    Forest.walk_exact (h.isForest hord) (s.enters .empty crossBackground enter) start
  refine ⟨nodes.filterMap (s.yield .empty), fun fuel hfuel => ?_, ?_, fun id => ?_⟩
  · have hlinks : s.below ++ s.links .empty = s.below := List.append_nil _
    rw [Index.walkDown, hlinks, hwalk fuel hfuel, Option.map_some]
  · rw [List.map_filterMap]
    refine hnodup.filterMap fun a b id ha hb => ?_
    obtain ⟨y, hy, rfl⟩ := Option.map_eq_some_iff.mp ha
    obtain ⟨z, hz, hid⟩ := Option.map_eq_some_iff.mp hb
    rw [yield_id hy, yield_id hz, hid]
  · rw [exists_yield_iff hlive, hmem]
    constructor
    · rintro ⟨⟨n, hentered, hlink⟩, htask⟩
      exact ⟨htask, hentered.climbs (fun _ _ hl => (h.mem_below.mp hl).1) hlink⟩
    · rintro ⟨htask, hclimbs⟩
      have hneeded := needed_of_isLive htask
      exact ⟨hclimbs.entered (fun _ _ hup hn => h.mem_below.mpr ⟨hup, hn⟩)
        (fun _ _ hup hn => h.needed_up hup hn) hneeded, htask⟩

end Index

namespace System

variable {s : System} {action : Action}

/-! ## The index is exact -/

theorem Inv.kept (h : s.Inv) {id : TaskId} {n : Node} (hlive : s.index.isLive (.task id) = true)
    (hn : n = .task id ∨
      Forest.Climbs (fun m => (s.index.parent m).join) (fun _ => true) (.task id) n) :
    s.index.sweep.parent n = s.index.parent n := by
  have hself := Index.needed_of_isLive hlive
  have hneeded : s.index.needed n = true := by
    rcases hn with rfl | hclimbs
    · exact hself
    · exact h.sound.exact.needed_of_climbs hclimbs hself
  refine (Index.sweep_forgets s.index).parent_kept fun hswept => ?_
  rw [hswept.not_needed] at hneeded
  cases hneeded

/-- Along a known way up, the index and the tables agree on where it leads. -/
theorem Inv.climbs_iff (h : s.Inv) {n start : Node} (hup : s.index.UpTo none n)
    (crossBackground : Bool) :
    Forest.Climbs s.index.up (s.index.enters .empty crossBackground fun _ => true) n start ↔
      Forest.Climbs s.records.up (s.records.enters crossBackground) n start := by
  have henters : ∀ {n : Node}, s.index.UpTo none n →
      s.index.enters .empty crossBackground (fun _ => true) n
        = s.records.enters crossBackground n := by
    intro n hn
    cases n with
    | conversation c => rfl
    | task id =>
      have hknown := hn.isSome
      rw [Known.parent, Option.isSome_map] at hknown
      obtain ⟨node, hnode⟩ := Option.isSome_iff_exists.mp hknown
      obtain ⟨record, hrecord, rfl⟩ := h.sound.node hnode
      simp [Index.enters, Records.enters, Index.fields_empty, hnode, hrecord]
  have hparent : ∀ {n : Node}, s.index.UpTo none n → s.records.up n = s.index.up n := by
    intro n hn
    obtain ⟨e, he⟩ := Option.isSome_iff_exists.mp hn.isSome
    rw [Records.up, Index.up, he, h.sound.parent he]
  have hnext : ∀ {n p : Node}, s.index.UpTo none n → s.index.up n = some p →
      s.index.UpTo none p := by
    intro n p hn hp
    cases hn with
    | here hstop => cases hstop
    | root hroot =>
      rw [Index.up, hroot] at hp
      cases hp
    | @step _ p' hstep hup' =>
      obtain rfl : p' = p := by simpa [Index.up, hstep] using hp
      exact hup'
  constructor
  · intro hclimbs
    induction hclimbs with
    | base hn => exact .base ((hparent hup).trans hn)
    | step hn henter _ ih =>
      have hp := hnext hup hn
      exact .step ((hparent hup).trans hn) ((henters hp).symm.trans henter) (ih hp)
  · intro hclimbs
    induction hclimbs with
    | base hn => exact .base ((hparent hup).symm.trans hn)
    | step hn henter _ ih =>
      have hn' := (hparent hup).symm.trans hn
      have hp := hnext hup hn'
      exact .step hn' ((henters hp).trans henter) (ih hp)

/-- A sound index whose chains are whole answers as the records would. -/
theorem Inv.indexed (h : s.Inv) (hwhole : s.Whole) : s.Indexed := by
  have hexact := h.sound.exact
  have hord := h.sound.ordered (.refl _) h.tree
  have hneeded : ∀ n, s.index.needed n = true ↔
      s.index.isLive n = true ∨ ∃ c, (n, c) ∈ s.index.below := by
    intro n
    rw [Index.needed, Bool.or_eq_true, Index.hasBelow_iff]
  refine ⟨fun p n => ?_, fun c => ?_, fun id n hlive hn => h.kept hlive hn, ?_⟩
  · rw [(hexact.listed n).below p, hneeded]
  · rw [(hexact.listed (.conversation c)).roots c rfl, hneeded, Known.parent]
    cases s.index.edges.lookup c with
    | none => simp
    | some owner => cases owner <;> simp [Known.isLive]
  · intro hunloaded crossBackground start
    obtain ⟨yields, hwalk, hnodup, hyields⟩ := hexact.walkDown hord
      (fun id record hid => ((h.sound.live id record).mp hid).2) crossBackground (fun _ => true)
      start
    refine ⟨yields, hwalk, hnodup, fun id => (hyields id).trans (and_congr_right fun hlive => ?_)⟩
    -- a live task is known, and outside `unloaded` its chain is whole
    have hknown : (s.index.node id).isSome = true := by
      obtain ⟨record, hrecord⟩ := Option.isSome_iff_exists.mp hlive
      rw [Known.node, hrecord]
      rfl
    have hloaded : id ∉ s.index.unloaded := by
      intro hmem
      rw [hunloaded id hmem] at hlive
      cases hlive
    exact h.climbs_iff (hwhole.upTo hknown hloaded) crossBackground

/-- **The downward index is exact** in every state of every run from `open` whose sweeps take no
node out of a chain that counts as loaded. -/
theorem ownership_index_exact (r : Records) (htree : r.IsTree) (s : System)
    (hrun : Run.Reachable step (fun s action => s.Valid action ∧ s.Keeps action) (opened r) s) :
    s.Indexed := by
  have hall : s.Inv ∧ s.Whole := by
    refine hrun.invariant (fun s => s.Inv ∧ s.Whole) ⟨inv_opened htree, whole_opened htree⟩ ?_
    rintro s action ⟨hinv, hwhole⟩ ⟨hvalid, hkeeps⟩
    exact ⟨inv_step hinv hvalid, whole_step hwhole hinv hvalid hkeeps⟩
  exact hall.1.indexed hall.2

def sampleTask (id : TaskId) (conversationId : ConversationId) (state : TaskState) : TaskRecord :=
  { id, conversationId, owner := none, background := false, abortRequested := false,
    abortReason := none, state }

/-- Task 2 owns conversation 3, in which task 4 has ended and task 6 runs; task 4 owned
conversation 5. -/
def sampleRecords : Records :=
  { tasks := [(2, sampleTask 2 1 .running), (4, sampleTask 4 3 (.terminal .completed)),
      (6, sampleTask 6 3 .running)]
    conversations := [(1, none), (3, some 2), (5, some 4)] }

def sampleLoads : List Action :=
  [.loadChain (.task 2) .empty, .turn, .turn, .install, .turn,
    .loadChain (.task 6) .empty, .turn, .turn, .install, .turn,
    .jobEnd (.conversation 1), .jobEnd (.conversation 3)]

def sampleCreate : List Action :=
  [.sweep, .publish [.task (sampleTask 8 3 .pending)]]

def sampleEnd : List Change :=
  [.task (sampleTask 8 3 (.terminal .completed))]

/-- The end of task 6 is admitted. Before it is published, a commit that creates task 7 in
conversation 5 loads the chain above it, and finds conversation 3 known. Then both are published. -/
def sampleOverlap : List Action :=
  [.loadChain (.conversation 5) { tasks := [(7, sampleTask 7 5 .pending)], edges := [] },
    .turn, .install, .turn, .install, .turn, .turn,
    .publish [.task (sampleTask 6 3 (.terminal .completed))],
    .publish [.task (sampleTask 7 5 .pending)],
    .jobEnd (.task 4), .jobEnd (.conversation 5)]

/-- The known ways up, one for each node. -/
def ups (s : Index) : List (Option Node) :=
  s.live.map (fun entry => some (parentNode entry.2.toTaskNode))
    ++ s.settled.map (fun entry => some (parentNode entry.2))
    ++ s.edges.map fun entry => entry.2.map .task

theorem mem_ups {index : Index} {n : Node} {up : Option Node} (h : index.parent n = some up) :
    up ∈ ups index := by
  simp only [ups, List.mem_append, List.mem_map]
  cases n with
  | task id =>
    obtain ⟨node, hnode, rfl⟩ := Option.map_eq_some_iff.mp h
    refine .inl ?_
    unfold Known.node at hnode
    split at hnode
    · next record hlive =>
      cases hnode
      exact .inl ⟨(id, record), Assoc.mem_of_lookup hlive, rfl⟩
    · exact .inr ⟨(id, node), Assoc.mem_of_lookup hnode, rfl⟩
  | conversation c =>
    obtain ⟨owner, howner, rfl⟩ := Option.map_eq_some_iff.mp h
    exact .inr ⟨(c, owner), Assoc.mem_of_lookup howner, rfl⟩

/-- Nothing known is below what is swept. -/
def sweepsLeaves (s : System) : Action → Bool
  | .publish changes => (s.index.observe changes).dropQueue.all fun n =>
    !(s.index.observe changes).drops n || some n ∉ ups (s.index.observe changes)
  | .sweep => s.index.dropQueue.all fun n => !s.index.drops n || some n ∉ ups s.index
  | _ => true

theorem keeps_of_sweepsLeaves (h : s.sweepsLeaves action = true) : s.Keeps action := by
  have hkeeps : ∀ index : Index,
      index.dropQueue.all (fun n => !index.drops n || some n ∉ ups index) = true →
      s.KeepsChains index := by
    intro index hall
    have hnot : ∀ stop m n, index.Above stop m n → ¬index.Swept n := by
      intro stop m n habove
      induction habove with
      | base hup =>
        rintro ⟨hmem, hdrops⟩
        have hn := List.all_eq_true.mp hall _ hmem
        simp [hdrops, mem_ups hup] at hn
      | step _ _ _ ih => exact ih
    exact fun id _ _ => ⟨fun _ n => hnot _ _ n, fun _ _ _ n => hnot _ _ n⟩
  cases action with
  | publish changes => exact hkeeps _ h
  | sweep => exact hkeeps _ h
  | _ => trivial

/-- Task 8 is swept as it ends. -/
theorem ownership_index_exact_loaded :
    (((sampleLoads ++ sampleCreate).foldl step (opened sampleRecords)).index.observe
        sampleEnd).Swept (.task 8) ∧
      Indexed ((sampleLoads ++ sampleCreate ++ [Action.publish sampleEnd]).foldl step
        (opened sampleRecords)) := by
  refine ⟨by decide, ownership_index_exact sampleRecords (by decide) _ (Run.reachable_foldl .init ?_)⟩
  have hguarded : Run.Guarded step (fun s action => s.Valid action ∧ s.sweepsLeaves action = true)
      (opened sampleRecords) (sampleLoads ++ sampleCreate ++ [.publish sampleEnd]) := by
    decide
  refine hguarded.mono ?_
  rintro s action ⟨hvalid, hleaves⟩
  exact ⟨hvalid, keeps_of_sweepsLeaves hleaves⟩

/-- The walk down from task 2 does not find task 7: conversation 3 was swept with the end of
task 6. -/
theorem swept_chain_hides_task :
    ¬∀ r, r.IsTree → ∀ s, Run.Reachable step Valid (opened r) s → s.Indexed := by
  intro h
  have hrun : Run.Reachable step Valid (opened sampleRecords)
      ((sampleLoads ++ sampleOverlap).foldl step (opened sampleRecords)) :=
    Run.reachable_foldl .init (by decide)
  have hindexed := h sampleRecords (by decide) _ hrun
  obtain ⟨yields, hwalk, _, hyields⟩ := hindexed.walkDown (by decide) false (.task 2)
  have hnone : yields = [] := by
    have hwalked := hwalk 10 (by decide)
    exact (Option.some.inj hwalked).symm
  have hup : Forest.Climbs
      ((sampleLoads ++ sampleOverlap).foldl step (opened sampleRecords)).records.up
      (((sampleLoads ++ sampleOverlap).foldl step (opened sampleRecords)).records.enters false)
      (.task 7) (.task 2) :=
    -- by conversation 5, task 4 and conversation 3
    .step (p := .conversation 5) rfl rfl (.step (p := .task 4) rfl rfl
      (.step (p := .conversation 3) rfl rfl (.base rfl)))
  obtain ⟨y, hy, _⟩ := (hyields 7).mpr ⟨by decide, hup⟩
  rw [hnone] at hy
  cases hy

end System

end ThreeXhaust.Harness
