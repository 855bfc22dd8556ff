import ThreeXhaust.Harness.Ownership
import Mathlib.Tactic.Common

/-!
# The downward index is exact

`Listed` says that one node is listed where it should be: under its known parent, or among the roots,
while it is a live task or has nodes listed below it. What the scheduler learns or forgets about one
node can only put that node out of place; `relist` then puts it back, with every node above it that
this concerns.
-/

namespace ThreeXhaust.Harness

variable {s' s'' : Index}

namespace Index

variable {s : Index} {n m p : Node}

theorem hasBelow_iff : s.hasBelow n = true ↔ ∃ c, (n, c) ∈ s.below := by
  simp [hasBelow]

/-- `n` is listed where it should be. -/
structure Listed (s : Index) (n : Node) : Prop where
  below : ∀ p, (p, n) ∈ s.below ↔ s.parent n = some (some p) ∧ s.needed n = true
  roots : ∀ c, n = .conversation c →
    (c ∈ s.roots ↔ s.parent n = some none ∧ s.needed n = true)

/-- `n` is listed nowhere but where it could be. -/
structure ListedAtMost (s : Index) (n : Node) : Prop where
  below : ∀ p, (p, n) ∈ s.below → s.parent n = some (some p)
  roots : ∀ c, n = .conversation c → c ∈ s.roots → s.parent n = some none

structure Exact (s : Index) : Prop where
  listed : ∀ n, s.Listed n
  nodup : s.below.Nodup

structure ExactOff (s : Index) (n : Node) : Prop where
  listed : ∀ m, m ≠ n → s.Listed m
  self : s.ListedAtMost n
  nodup : s.below.Nodup

def Ordered (s : Known) : Prop :=
  ∀ n p, s.parent n = some (some p) → p.id < n.id

theorem Listed.atMost (h : s.Listed n) : s.ListedAtMost n :=
  ⟨fun p hp => ((h.below p).mp hp).1, fun c hc hmem => ((h.roots c hc).mp hmem).1⟩

theorem ExactOff.exact (h : s.ExactOff n) (hself : s.Listed n) : s.Exact := by
  refine ⟨fun m => ?_, h.nodup⟩
  by_cases hm : m = n
  · exact hm ▸ hself
  · exact h.listed m hm

theorem ListedAtMost.listed_of_unknown (h : s.ListedAtMost n) (hparent : s.parent n = none) :
    s.Listed n := by
  refine ⟨fun p => ⟨fun hp => ?_, fun hp => ?_⟩, fun c hc => ⟨fun hroot => ?_, fun hroot => ?_⟩⟩
  · exact absurd (hparent.symm.trans (h.below p hp)) (by simp)
  · exact absurd (hparent.symm.trans hp.1) (by simp)
  · exact absurd (hparent.symm.trans (h.roots c hc hroot)) (by simp)
  · exact absurd (hparent.symm.trans hroot.1) (by simp)

theorem ListedAtMost.listed_of_parent (h : s.ListedAtMost n) (hparent : s.parent n = some (some p))
    (hright : (p, n) ∈ s.below ↔ s.needed n = true) : s.Listed n := by
  refine ⟨fun q => ⟨fun hq => ?_, fun hq => ?_⟩, fun c hc => ⟨fun hroot => ?_, fun hroot => ?_⟩⟩
  · have heq : p = q := by simpa using hparent.symm.trans (h.below q hq)
    subst heq
    exact ⟨hparent, hright.mp hq⟩
  · have heq : p = q := by simpa using hparent.symm.trans hq.1
    subst heq
    exact hright.mpr hq.2
  · exact absurd (hparent.symm.trans (h.roots c hc hroot)) (by simp)
  · exact absurd (hparent.symm.trans hroot.1) (by simp)

theorem Listed.congr (h : s.Listed n) (hparent : s'.parent n = s.parent n)
    (hneeded : s'.needed n = s.needed n) (hbelow : ∀ p, (p, n) ∈ s'.below ↔ (p, n) ∈ s.below)
    (hroots : ∀ c, n = .conversation c → (c ∈ s'.roots ↔ c ∈ s.roots)) : s'.Listed n := by
  refine ⟨fun p => ?_, fun c hc => ?_⟩
  · rw [hbelow, hparent, hneeded]
    exact h.below p
  · rw [hroots c hc, hparent, hneeded]
    exact h.roots c hc

/-! ## What the operations leave as it is -/

/-- Two indexes that differ only in the queue. -/
structure SameButQueue (s s' : Index) : Prop where
  known : s'.toKnown = s.toKnown
  below : s'.below = s.below
  roots : s'.roots = s.roots
  unloaded : s'.unloaded = s.unloaded
  pins : s'.pins = s.pins
  queue : s.dropQueue ⊆ s'.dropQueue

structure SameButListing (s s' : Index) : Prop where
  known : s'.toKnown = s.toKnown
  unloaded : s'.unloaded = s.unloaded
  pins : s'.pins = s.pins
  queue : s.dropQueue ⊆ s'.dropQueue

theorem SameButQueue.sameButListing (h : SameButQueue s s') : SameButListing s s' :=
  ⟨h.known, h.unloaded, h.pins, h.queue⟩

theorem SameButListing.refl (s : Index) : SameButListing s s :=
  ⟨rfl, rfl, rfl, fun _ h => h⟩

theorem SameButListing.trans (h : SameButListing s s') (h' : SameButListing s' s'')
    : SameButListing s s'' :=
  ⟨h'.known.trans h.known, h'.unloaded.trans h.unloaded, h'.pins.trans h.pins,
    fun _ hn => h'.queue (h.queue hn)⟩

theorem dropIfUnneeded_same (s : Index) (n : Node) : SameButQueue s (s.dropIfUnneeded n) := by
  rw [dropIfUnneeded]
  split
  · exact ⟨rfl, rfl, rfl, rfl, rfl, fun _ h => h⟩
  · split
    · exact ⟨rfl, rfl, rfl, rfl, rfl, fun _ h => h⟩
    · refine ⟨rfl, rfl, rfl, rfl, rfl, fun m hm => ?_⟩
      show m ∈ addTo s.dropQueue n
      rw [addTo]
      split
      · exact hm
      · exact List.mem_append_left _ hm

theorem mem_dropIfUnneeded (hlive : s.isLive n = false) (hbelow : s.hasBelow n = false) :
    n ∈ (s.dropIfUnneeded n).dropQueue := by
  rw [dropIfUnneeded, if_neg (by simp [hlive]), if_neg (by simp [hbelow])]
  show n ∈ addTo s.dropQueue n
  rw [addTo]
  split
  · assumption
  · simp

theorem listUnder_same (s : Index) (p n : Node) : SameButListing s (s.listUnder p n) :=
  ⟨rfl, rfl, rfl, fun _ h => h⟩

theorem unlistFrom_same (s : Index) (p n : Node) : SameButListing s (s.unlistFrom p n) :=
  ⟨rfl, rfl, rfl, fun _ h => h⟩

theorem relistRoot_same (s : Index) (n : Node) : SameButListing s (s.relistRoot n) := by
  cases n with
  | task _ => exact .refl s
  | conversation root =>
    rw [relistRoot]
    split
    · exact ⟨rfl, rfl, rfl, fun _ h => h⟩
    · exact ⟨rfl, rfl, rfl, fun _ h => h⟩

theorem relistLoop_same (fuel : Nat) (s : Index) (n : Node) :
    SameButListing s (relistLoop fuel s n) := by
  induction fuel generalizing s n with
  | zero => exact .refl s
  | succ fuel ih =>
    rw [relistLoop]
    split
    · exact .refl s
    · exact relistRoot_same s n
    · split
      · exact .refl s
      · split
        · split
          · exact listUnder_same s _ n
          · exact (listUnder_same s _ n).trans (ih _ _)
        · split
          · exact unlistFrom_same s _ n
          · exact ((unlistFrom_same s _ n).trans (dropIfUnneeded_same _ _).sameButListing).trans
              (ih _ _)

theorem relist_same (s : Index) (n : Node) : SameButListing s (s.relist n) :=
  relistLoop_same _ s n

theorem Listed.of_eq (h : s.Listed n) (hknown : s'.toKnown = s.toKnown)
    (hbelow : s'.below = s.below) (hroots : s'.roots = s.roots) : s'.Listed n := by
  refine h.congr (by rw [hknown]) ?_ (by simp [hbelow]) (by simp [hroots])
  rw [needed, needed, hasBelow, hasBelow, hknown, hbelow]

theorem Exact.of_eq (h : s.Exact) (hknown : s'.toKnown = s.toKnown) (hbelow : s'.below = s.below)
    (hroots : s'.roots = s.roots) : s'.Exact :=
  ⟨fun n => (h.listed n).of_eq hknown hbelow hroots, hbelow ▸ h.nodup⟩

theorem ExactOff.of_sameButQueue (h : s.ExactOff n) (hsame : SameButQueue s s') :
    s'.ExactOff n := by
  refine ⟨fun m hm => (h.listed m hm).of_eq hsame.known hsame.below hsame.roots, ⟨?_, ?_⟩,
    hsame.below ▸ h.nodup⟩
  · rw [hsame.below, hsame.known]
    exact h.self.below
  · rw [hsame.roots, hsame.known]
    exact h.self.roots

/-! ## Relisting -/

theorem mem_listUnder {a b : Node} :
    (a, b) ∈ (s.listUnder p n).below ↔ (a, b) ∈ s.below ∨ a = p ∧ b = n := by
  simp [listUnder]

theorem mem_unlistFrom {a b : Node} :
    (a, b) ∈ (s.unlistFrom p n).below ↔ (a, b) ∈ s.below ∧ ¬(a = p ∧ b = n) := by
  rw [unlistFrom, List.mem_filter, decide_eq_true_eq, ne_eq, Prod.mk.injEq]

theorem needed_listUnder (hm : m ≠ p) : (s.listUnder p n).needed m = s.needed m := by
  have hbelow : (s.listUnder p n).hasBelow m = s.hasBelow m := by
    rw [Bool.eq_iff_iff, hasBelow_iff, hasBelow_iff]
    simp only [mem_listUnder, hm, false_and, or_false]
  rw [needed, needed, hbelow]
  rfl

theorem needed_unlistFrom (hm : m ≠ p) : (s.unlistFrom p n).needed m = s.needed m := by
  have hbelow : (s.unlistFrom p n).hasBelow m = s.hasBelow m := by
    rw [Bool.eq_iff_iff, hasBelow_iff, hasBelow_iff]
    simp only [mem_unlistFrom, hm, false_and, not_false_eq_true, and_true]
  rw [needed, needed, hbelow]
  rfl

theorem ExactOff.listUnder (h : s.ExactOff n) (hparent : s.parent n = some (some p)) (hne : p ≠ n)
    (hneeded : s.needed n = true) (hmem : (p, n) ∉ s.below) : (s.listUnder p n).ExactOff p := by
  refine ⟨fun m hm => ?_, ⟨?_, (h.listed p hne).atMost.roots⟩, ?_⟩
  · by_cases hmn : m = n
    · subst hmn
      have hself : (s.listUnder p m).ListedAtMost m := by
        refine ⟨fun q hq => ?_, h.self.roots⟩
        rcases mem_listUnder.mp hq with hold | ⟨rfl, _⟩
        · exact h.self.below q hold
        · exact hparent
      refine hself.listed_of_parent hparent ?_
      rw [mem_listUnder, needed_listUnder hm]
      simp [hneeded]
    · exact (h.listed m hmn).congr rfl (needed_listUnder hm)
        (fun q => by simp [mem_listUnder, hmn]) (fun _ _ => Iff.rfl)
  · intro q hq
    rcases mem_listUnder.mp hq with hold | ⟨_, heq⟩
    · exact (h.listed p hne).atMost.below q hold
    · exact absurd heq hne
  · exact h.nodup.append (List.nodup_singleton _) (by simpa using hmem)

theorem ExactOff.unlistFrom (h : s.ExactOff n) (hparent : s.parent n = some (some p)) (hne : p ≠ n)
    (hneeded : s.needed n = false) : (s.unlistFrom p n).ExactOff p := by
  refine ⟨fun m hm => ?_, ⟨?_, (h.listed p hne).atMost.roots⟩, h.nodup.filter _⟩
  · by_cases hmn : m = n
    · subst hmn
      have hself : (s.unlistFrom p m).ListedAtMost m :=
        ⟨fun q hq => h.self.below q (mem_unlistFrom.mp hq).1, h.self.roots⟩
      refine hself.listed_of_parent hparent ?_
      rw [mem_unlistFrom, needed_unlistFrom hm]
      simp [hneeded]
    · exact (h.listed m hmn).congr rfl (needed_unlistFrom hm)
        (fun q => by simp [mem_unlistFrom, hmn]) (fun _ _ => Iff.rfl)
  · intro q hq
    exact (h.listed p hne).atMost.below q (mem_unlistFrom.mp hq).1

theorem ExactOff.exact_of_hasBelow (h : s'.ExactOff p) (hp : s.Listed p)
    (hknown : s'.toKnown = s.toKnown) (hbefore : s.hasBelow p = true)
    (hafter : s'.hasBelow p = true) (hbelow : ∀ q, (q, p) ∈ s'.below ↔ (q, p) ∈ s.below)
    (hroots : s'.roots = s.roots) : s'.Exact := by
  apply h.exact
  refine hp.congr (by rw [hknown]) ?_ hbelow (by simp [hroots])
  rw [needed, needed, hbefore, hafter, Bool.or_true, Bool.or_true]

theorem ExactOff.relistRoot (h : s.ExactOff n) (hparent : s.parent n = some none) :
    (s.relistRoot n).Exact := by
  cases n with
  | task id =>
    rw [Known.parent, Option.map_eq_some_iff] at hparent
    obtain ⟨node, _, hnode⟩ := hparent
    cases hnode
  | conversation root =>
    -- whichever way, only whether `root` is among the roots changes
    have hmem : ∀ c, c ∈ (s.relistRoot (.conversation root)).roots
        ↔ if c = root then s.needed (.conversation root) = true else c ∈ s.roots := by
      intro c
      rw [Index.relistRoot]
      by_cases hneeded : s.needed (.conversation root) = true
      · rw [if_pos hneeded, addTo]
        by_cases hc : c = root
        · subst hc
          by_cases hold : c ∈ s.roots
          · simp [hold, hneeded]
          · simp [hold, hneeded]
        · by_cases hold : root ∈ s.roots
          · simp [hold, hc]
          · simp [hold, hc]
      · rw [if_neg hneeded]
        by_cases hc : c = root
        · simp [hc, hneeded]
        · simp [hc]
    have hsame : (s.relistRoot (.conversation root)).below = s.below := by
      rw [Index.relistRoot]
      split <;> rfl
    have hknown := (relistRoot_same s (.conversation root)).known
    have hneeded : ∀ m, (s.relistRoot (.conversation root)).needed m = s.needed m := by
      intro m
      rw [needed, needed, hasBelow, hasBelow, hknown, hsame]
    refine ⟨fun m => ?_, hsame ▸ h.nodup⟩
    by_cases hm : m = .conversation root
    · subst hm
      refine ⟨fun q => ?_, fun c hc => ?_⟩
      · rw [hsame, hknown, hparent]
        constructor
        · intro hq
          exact absurd (hparent.symm.trans (h.self.below q hq)) (by simp)
        · rintro ⟨hq, _⟩
          cases hq
      · obtain rfl : root = c := by simpa using hc
        rw [hmem, if_pos rfl, hknown, hneeded, hparent]
        simp
    · refine (h.listed m hm).congr (by rw [hknown]) (hneeded m) (by simp [hsame]) ?_
      intro c hc
      rw [hmem, if_neg]
      rintro rfl
      exact hm hc

/-- The loop puts `n` back, and the nodes above it that this concerns: each turn leaves at most the
parent out of place, and parents have smaller ids. -/
theorem relistLoop_exact (fuel : Nat) (hfuel : n.id < fuel) (hord : Ordered s.toKnown)
    (h : s.ExactOff n) : (relistLoop fuel s n).Exact := by
  induction fuel generalizing s n with
  | zero => omega
  | succ fuel ih =>
    rw [relistLoop]
    split
    · exact h.exact (h.self.listed_of_unknown ‹_›)
    · exact h.relistRoot ‹_›
    · rename_i p hparent
      have hlt := hord n p hparent
      have hne : p ≠ n := by
        rintro rfl
        omega
      split
      · rename_i hright
        apply h.exact
        apply h.self.listed_of_parent hparent
        rw [← hright, decide_eq_true_eq]
      · rename_i hwrong
        split
        · rename_i hneeded
          have hmem : (p, n) ∉ s.below := by
            intro hmem
            exact hwrong (by simp [hmem, hneeded])
          have hoff := h.listUnder hparent hne hneeded hmem
          split
          · rename_i hbelow
            refine hoff.exact_of_hasBelow (h.listed p hne) rfl hbelow ?_ ?_ rfl
            · exact hasBelow_iff.mpr ⟨n, mem_listUnder.mpr (.inr ⟨rfl, rfl⟩)⟩
            · intro q
              simp [mem_listUnder, hne]
          · exact ih (by omega) hord hoff
        · rename_i hneeded
          rw [Bool.not_eq_true] at hneeded
          have hmem : (p, n) ∈ s.below := by
            by_contra hmem
            exact hwrong (by simp [hmem, hneeded])
          have hoff := h.unlistFrom hparent hne hneeded
          split
          · rename_i hbelow
            refine hoff.exact_of_hasBelow (h.listed p hne) rfl ?_ hbelow ?_ rfl
            · exact hasBelow_iff.mpr ⟨n, hmem⟩
            · intro q
              simp [mem_unlistFrom, hne]
          · have hsame := dropIfUnneeded_same (s.unlistFrom p n) p
            exact ih (by omega) (hsame.known ▸ hord) (hoff.of_sameButQueue hsame)

theorem relist_exact (hord : Ordered s.toKnown) (h : s.ExactOff n) : (s.relist n).Exact :=
  relistLoop_exact _ (Nat.lt_succ_self _) hord h

/-! ## Learning about a node -/

theorem Exact.off_of_learned (h : s.Exact) (hbelow : s'.below = s.below)
    (hroots : s'.roots = s.roots) (hparent : ∀ m, m ≠ n → s'.parent m = s.parent m)
    (hlive : ∀ m, m ≠ n → s'.isLive m = s.isLive m)
    (hself : ∀ e, s.parent n = some e → s'.parent n = some e) : s'.ExactOff n := by
  refine ⟨fun m hm => ?_, ⟨fun p hp => ?_, fun c hc hroot => ?_⟩, hbelow ▸ h.nodup⟩
  · refine (h.listed m).congr (hparent m hm) ?_ (by simp [hbelow]) (by simp [hroots])
    rw [needed, needed, hlive m hm, hasBelow, hasBelow, hbelow]
  · rw [hbelow] at hp
    exact hself _ ((h.listed n).atMost.below p hp)
  · rw [hroots] at hroot
    exact hself _ ((h.listed n).atMost.roots c hc hroot)

end Index

namespace Known

variable {s : Known} {id : TaskId} {c : ConversationId} {record : TaskRecord} {node : TaskNode}
  {owner : Option TaskId}

theorem parent_setEdge (n : Node) :
    parent { s with edges := Assoc.set s.edges c owner } n
      = if n = .conversation c then some (owner.map .task) else s.parent n := by
  cases n with
  | task id => rfl
  | conversation other =>
    rw [parent, Assoc.lookup_set]
    by_cases hother : other = c
    · simp [hother]
    · simp [hother, parent]

theorem node_settle (hlive : s.live.lookup id = none) (other : TaskId) :
    Known.node { s with settled := Assoc.set s.settled id node } other
      = if other = id then some node else s.node other := by
  rw [Known.node, Assoc.lookup_set]
  by_cases hother : other = id
  · simp [hother, hlive]
  · simp [hother, Known.node]

theorem node_end (other : TaskId) :
    Known.node { s with
      live := Assoc.erase s.live id
      settled := Assoc.set s.settled id node } other
      = if other = id then some node else s.node other := by
  rw [Known.node, Assoc.lookup_set, Assoc.lookup_erase]
  by_cases hother : other = id
  · simp [hother]
  · simp [hother, Known.node]

theorem node_setLive (other : TaskId) :
    Known.node { s with live := Assoc.set s.live id record } other
      = if other = id then some record.toTaskNode else s.node other := by
  rw [Known.node, Assoc.lookup_set]
  by_cases hother : other = id
  · simp [hother]
  · simp [hother, Known.node]

theorem parent_of_node {s' : Known}
    (hnode : ∀ other, s'.node other = if other = id then some node else s.node other)
    (hedges : s'.edges = s.edges) (n : Node) :
    s'.parent n = if n = .task id then some (some (parentNode node)) else s.parent n := by
  cases n with
  | conversation c => simp [parent, hedges]
  | task other =>
    rw [parent, hnode]
    by_cases hother : other = id
    · simp [hother]
    · simp [hother, parent]

theorem parent_settle (hlive : s.live.lookup id = none) (n : Node) :
    parent { s with settled := Assoc.set s.settled id node } n
      = if n = .task id then some (some (parentNode node)) else s.parent n :=
  parent_of_node (node_settle hlive) rfl n

theorem parent_end (n : Node) :
    parent { s with
      live := Assoc.erase s.live id
      settled := Assoc.set s.settled id node } n
      = if n = .task id then some (some (parentNode node)) else s.parent n :=
  parent_of_node node_end rfl n

theorem parent_setLive (n : Node) :
    parent { s with live := Assoc.set s.live id record } n
      = if n = .task id then some (some (parentNode record.toTaskNode)) else s.parent n :=
  parent_of_node node_setLive rfl n

end Known

namespace Index

variable {s : Index} {n : Node} {id : TaskId} {c : ConversationId} {record : TaskRecord}
  {node : TaskNode} {owner : Option TaskId}

/-! ## The operations -/

theorem Exact.relisted (hord : Ordered s.toKnown) (h : s.ExactOff n) :
    ((s.relist n).dropIfUnneeded n).Exact := by
  have hsame := dropIfUnneeded_same (s.relist n) n
  exact (relist_exact hord h).of_eq hsame.known hsame.below hsame.roots

theorem relisted_same (s : Index) (n : Node) :
    SameButListing s ((s.relist n).dropIfUnneeded n) :=
  (relist_same s n).trans (dropIfUnneeded_same _ n).sameButListing

theorem setEdge_same (s : Index) (c : ConversationId) (owner : Option TaskId) :
    SameButListing { s with edges := Assoc.set s.edges c owner } (s.setEdge c owner) :=
  relisted_same _ _

theorem Exact.setEdge (h : s.Exact)
    (hord : Ordered { s.toKnown with edges := Assoc.set s.edges c owner })
    (hagree : ∀ e, s.edges.lookup c = some e → e = owner) : (s.setEdge c owner).Exact := by
  refine Exact.relisted hord (h.off_of_learned rfl rfl ?_ (fun _ _ => rfl) ?_)
  · intro m hm
    exact (Known.parent_setEdge m).trans (if_neg hm)
  · intro e he
    rw [Known.parent, Option.map_eq_some_iff] at he
    obtain ⟨owner', howner', rfl⟩ := he
    rw [hagree owner' howner']
    exact (Known.parent_setEdge _).trans (if_pos rfl)

theorem settle_same (s : Index) (id : TaskId) (node : TaskNode) :
    SameButListing
      { s with settled := Assoc.set s.settled id node, unloaded := addTo s.unloaded id }
      (s.settle id node) :=
  relisted_same _ _

theorem Exact.settle (h : s.Exact)
    (hord : Ordered { s.toKnown with settled := Assoc.set s.settled id node })
    (hlive : s.live.lookup id = none) (hagree : ∀ old, s.settled.lookup id = some old → old = node) :
    (s.settle id node).Exact := by
  refine Exact.relisted hord (h.off_of_learned rfl rfl ?_ (fun _ _ => rfl) ?_)
  · intro m hm
    exact (Known.parent_settle hlive m).trans (if_neg hm)
  · intro e he
    rw [Known.parent, Known.node, hlive, Option.map_eq_some_iff] at he
    obtain ⟨old, hold, rfl⟩ := he
    rw [hagree old hold]
    exact (Known.parent_settle hlive _).trans (if_pos rfl)

theorem isLive_end (m : Node) (hm : m ≠ .task id) :
    Known.isLive { s.toKnown with
      live := Assoc.erase s.live id
      settled := Assoc.set s.settled id node } m = s.isLive m := by
  cases m with
  | conversation c => rfl
  | task other =>
    have hother : other ≠ id := fun h => hm (h ▸ rfl)
    rw [Known.isLive, Assoc.lookup_erase, if_neg hother]
    rfl

theorem isLive_setLive (m : Node) (hm : m ≠ .task id) :
    Known.isLive { s.toKnown with live := Assoc.set s.live id record } m = s.isLive m := by
  cases m with
  | conversation c => rfl
  | task other =>
    have hother : other ≠ id := fun h => hm (h ▸ rfl)
    rw [Known.isLive, Assoc.lookup_set, if_neg hother]
    rfl

theorem trackEnd_same (s : Index) (record : TaskRecord) :
    SameButListing
      { s with
        live := Assoc.erase s.live record.id
        settled := Assoc.set s.settled record.id record.toTaskNode }
      (s.trackEnd record) :=
  relisted_same _ _

theorem Exact.trackEnd (h : s.Exact)
    (hord : Ordered { s.toKnown with
      live := Assoc.erase s.live record.id
      settled := Assoc.set s.settled record.id record.toTaskNode })
    (hagree : ∀ old, s.node record.id = some old → old = record.toTaskNode) :
    (s.trackEnd record).Exact := by
  refine Exact.relisted hord (h.off_of_learned rfl rfl ?_ isLive_end ?_)
  · intro m hm
    exact (Known.parent_end m).trans (if_neg hm)
  · intro e he
    rw [Known.parent, Option.map_eq_some_iff] at he
    obtain ⟨old, hold, rfl⟩ := he
    rw [hagree old hold]
    exact (Known.parent_end _).trans (if_pos rfl)

/-- What becomes of `unloaded` with a new live task. -/
def unloadedWith (s : Index) (record : TaskRecord) : List TaskId :=
  if known { s with live := Assoc.set s.live record.id record } (parentNode record.toTaskNode)
  then s.unloaded else addTo s.unloaded record.id

theorem trackNew_eq (s : Index) (record : TaskRecord) :
    s.trackNew record = relist
      { s with
        live := Assoc.set s.live record.id record
        unloaded := s.unloadedWith record } (.task record.id) := by
  rw [trackNew, unloadedWith]
  dsimp only
  split
  · rfl
  · rfl

theorem trackNew_same (s : Index) (record : TaskRecord) :
    SameButListing
      { s with
        live := Assoc.set s.live record.id record
        unloaded := s.unloadedWith record }
      (s.trackNew record) := by
  rw [trackNew_eq]
  exact relist_same _ _

theorem Exact.trackNew (h : s.Exact)
    (hord : Ordered { s.toKnown with live := Assoc.set s.live record.id record })
    (hagree : ∀ old, s.node record.id = some old → old = record.toTaskNode) :
    (s.trackNew record).Exact := by
  rw [trackNew_eq]
  refine relist_exact hord (h.off_of_learned rfl rfl ?_ isLive_setLive ?_)
  · intro m hm
    exact (Known.parent_setLive m).trans (if_neg hm)
  · intro e he
    rw [Known.parent, Option.map_eq_some_iff] at he
    obtain ⟨old, hold, rfl⟩ := he
    rw [hagree old hold]
    exact (Known.parent_setLive _).trans (if_pos rfl)

theorem Exact.setLive (h : s.Exact) {old : TaskRecord} (hlive : s.live.lookup record.id = some old)
    (hagree : old.toTaskNode = record.toTaskNode) :
    Exact { s with live := Assoc.set s.live record.id record } := by
  have hnode : s.node record.id = some record.toTaskNode := by
    rw [Known.node, hlive]
    exact congrArg some hagree
  refine ⟨fun m => (h.listed m).congr ?_ ?_ (fun _ => Iff.rfl) (fun _ _ => Iff.rfl), h.nodup⟩
  · refine (Known.parent_setLive m).trans ?_
    by_cases hm : m = .task record.id
    · rw [if_pos hm, hm, Known.parent, hnode]
      rfl
    · rw [if_neg hm]
  · show (Known.isLive _ m || s.hasBelow m) = (s.isLive m || s.hasBelow m)
    by_cases hm : m = .task record.id
    · subst hm
      simp [Known.isLive, Assoc.lookup_set, hlive]
    · rw [isLive_setLive m hm]

/-! ## The sweep -/

/-- Whether the sweep drops `n` when it finds it in the queue. -/
def drops (s : Index) (n : Node) : Bool :=
  !s.hasBelow n && n ∉ s.pins && !s.isLive n

structure SameButKnown (s s' : Index) : Prop where
  live : s'.live = s.live
  below : s'.below = s.below
  pins : s'.pins = s.pins

theorem SameButKnown.refl (s : Index) : SameButKnown s s :=
  ⟨rfl, rfl, rfl⟩

theorem SameButKnown.trans (h : SameButKnown s s') (h' : SameButKnown s' s'') :
    SameButKnown s s'' :=
  ⟨h'.live.trans h.live, h'.below.trans h.below, h'.pins.trans h.pins⟩

theorem isLive_of_live {s s' : Known} (h : s'.live = s.live) (n : Node) :
    s'.isLive n = s.isLive n := by
  cases n with
  | conversation c => rfl
  | task id => rw [Known.isLive, Known.isLive, h]

theorem SameButKnown.drops (h : SameButKnown s s') (n : Node) : s'.drops n = s.drops n := by
  rw [Index.drops, Index.drops, hasBelow, hasBelow, h.below, h.pins, isLive_of_live h.live]

theorem SameButKnown.needed (h : SameButKnown s s') (n : Node) : s'.needed n = s.needed n := by
  rw [Index.needed, Index.needed, hasBelow, hasBelow, h.below, isLive_of_live h.live]

theorem drop_eq (s : Index) (n : Node) : s.drop n = if s.drops n then s.forget n else s := by
  rw [drop, Index.drops]
  by_cases hkeep : s.hasBelow n = true ∨ n ∈ s.pins
  · rw [if_pos (by simpa using hkeep), if_neg]
    rcases hkeep with hbelow | hpin
    · simp [hbelow]
    · simp [hpin]
  · rw [if_neg (by simpa using hkeep)]
    push Not at hkeep
    obtain ⟨hbelow, hpin⟩ := hkeep
    cases hlive : s.isLive n with
    | false => simp [hbelow, hpin]
    | true =>
      -- only a task is live, and a live one is kept
      cases n with
      | conversation c => cases hlive
      | task id => simp [forget, hlive]

/-- Whether the sweep drops `n`. -/
def Swept (s : Index) (n : Node) : Prop :=
  n ∈ s.dropQueue ∧ s.drops n = true

instance (s : Index) (n : Node) : Decidable (s.Swept n) :=
  inferInstanceAs (Decidable (_ ∧ _))

/-- The state `s'` that `s` becomes when the nodes of `gone` are forgotten. -/
structure Forgets (s s' : Index) (gone : Node → Prop) : Prop where
  same : SameButKnown s s'
  node_gone : ∀ id, gone (.task id) → s'.node id = none
  node_kept : ∀ id, ¬gone (.task id) → s'.node id = s.node id
  edge_gone : ∀ c, gone (.conversation c) → s'.edges.lookup c = none
  edge_kept : ∀ c, ¬gone (.conversation c) → s'.edges.lookup c = s.edges.lookup c
  roots : ∀ c, c ∈ s'.roots ↔ c ∈ s.roots ∧ ¬gone (.conversation c)
  unloaded : ∀ id, id ∈ s'.unloaded ↔ id ∈ s.unloaded ∧ ¬gone (.task id)
  settled : ∀ id node, s'.settled.lookup id = some node → s.settled.lookup id = some node

theorem Forgets.refl (s : Index) : Forgets s s fun _ => False :=
  ⟨.refl s, fun _ h => h.elim, fun _ _ => rfl, fun _ h => h.elim, fun _ _ => rfl, by simp, by simp,
    fun _ _ h => h⟩

theorem Forgets.trans {gone gone' : Node → Prop} (h : Forgets s s' gone) (h' : Forgets s' s'' gone')
    : Forgets s s'' fun n => gone n ∨ gone' n := by
  refine ⟨h.same.trans h'.same, ?_, ?_, ?_, ?_, ?_, ?_,
    fun id node hid => h.settled id node (h'.settled id node hid)⟩
  · intro id hgone
    by_cases hlast : gone' (.task id)
    · exact h'.node_gone id hlast
    · rw [h'.node_kept id hlast, h.node_gone id (hgone.resolve_right hlast)]
  · intro id hkept
    rw [h'.node_kept id (fun hg => hkept (.inr hg)), h.node_kept id (fun hg => hkept (.inl hg))]
  · intro c hgone
    by_cases hlast : gone' (.conversation c)
    · exact h'.edge_gone c hlast
    · rw [h'.edge_kept c hlast, h.edge_gone c (hgone.resolve_right hlast)]
  · intro c hkept
    rw [h'.edge_kept c (fun hg => hkept (.inr hg)), h.edge_kept c (fun hg => hkept (.inl hg))]
  · intro c
    rw [h'.roots, h.roots]
    tauto
  · intro id
    rw [h'.unloaded, h.unloaded]
    tauto

theorem Forgets.congr {gone gone' : Node → Prop} (h : Forgets s s' gone)
    (hiff : ∀ n, gone n ↔ gone' n) : Forgets s s' gone' := by
  obtain rfl : gone = gone' := funext fun n => propext (hiff n)
  exact h

theorem forget_forgets (hlive : s.isLive n = false) : Forgets s (s.forget n) (· = n) := by
  cases n with
  | conversation c =>
    refine ⟨⟨rfl, rfl, rfl⟩, ?_, fun _ _ => rfl, ?_, ?_, ?_, by simp [forget], fun _ _ h => h⟩
    · intro id h
      cases h
    · rintro _ ⟨⟩
      rw [forget, Assoc.lookup_erase, if_pos rfl]
    · intro other hne
      rw [forget, Assoc.lookup_erase, if_neg (fun h => hne (congrArg Node.conversation h))]
    · simp [forget]
  | task id =>
    have hlookup : s.live.lookup id = none := by simpa [Known.isLive] using hlive
    have hforget : s.forget (.task id) = { s with
        settled := Assoc.erase s.settled id, unloaded := s.unloaded.filter (· ≠ id) } := by
      rw [forget, if_neg (by simp [hlive])]
    rw [hforget]
    refine ⟨⟨rfl, rfl, rfl⟩, ?_, ?_, ?_, fun _ _ => rfl, by simp, by simp, ?_⟩
    · rintro _ ⟨⟩
      rw [Known.node, hlookup]
      simp [Assoc.lookup_erase]
    · intro other hne
      rw [Known.node, Known.node]
      simp [Assoc.lookup_erase, show other ≠ id from fun h => hne (congrArg Node.task h)]
    · intro c h
      cases h
    · intro other node hother
      rw [Assoc.lookup_erase] at hother
      split at hother
      · cases hother
      · exact hother

theorem drop_forgets (s : Index) (n : Node) :
    Forgets s (s.drop n) fun m => m = n ∧ s.drops n = true := by
  rw [drop_eq]
  split
  · rename_i hdrops
    have hlive : s.isLive n = false := by
      simp only [Index.drops, Bool.and_eq_true, Bool.not_eq_true'] at hdrops
      exact hdrops.2
    exact (forget_forgets hlive).congr (by simp [hdrops])
  · rename_i hdrops
    exact (Forgets.refl s).congr (by simp [hdrops])

theorem foldl_drop_forgets (queue : List Node) (s : Index) :
    Forgets s (queue.foldl drop s) fun n => n ∈ queue ∧ s.drops n = true := by
  induction queue generalizing s with
  | nil => exact (Forgets.refl s).congr (by simp)
  | cons n queue ih =>
    have hdrop := drop_forgets s n
    refine (hdrop.trans (ih (s.drop n))).congr ?_
    intro m
    rw [hdrop.same.drops]
    by_cases hm : m = n
    · simp [hm]
    · simp [hm]

/-- **What a sweep does.** -/
theorem sweep_forgets (s : Index) : Forgets s s.sweep s.Swept := by
  obtain ⟨⟨hl, hb, hp⟩, hng, hnk, heg, hek, hr, hu, hs⟩ := foldl_drop_forgets s.dropQueue s
  exact ⟨⟨hl, hb, hp⟩, hng, hnk, heg, hek, hr, hu, hs⟩

theorem Forgets.parent_gone {gone : Node → Prop} (h : Forgets s s' gone) (hn : gone n)
    : s'.parent n = none := by
  cases n with
  | conversation c => rw [Known.parent, h.edge_gone c hn, Option.map_none]
  | task id => rw [Known.parent, h.node_gone id hn, Option.map_none]

theorem Forgets.parent_kept {gone : Node → Prop} (h : Forgets s s' gone) (hn : ¬gone n)
    : s'.parent n = s.parent n := by
  cases n with
  | conversation c => rw [Known.parent, Known.parent, h.edge_kept c hn]
  | task id => rw [Known.parent, Known.parent, h.node_kept id hn]

theorem Swept.not_needed (h : s.Swept n) : s.needed n = false := by
  have hdrops := h.2
  simp only [Index.drops, Bool.and_eq_true, Bool.not_eq_true'] at hdrops
  rw [needed, hdrops.1.1, hdrops.2, Bool.or_false]

/-- What is not needed is not listed, so forgetting it leaves everything in place. -/
theorem Exact.sweep (h : s.Exact) : s.sweep.Exact := by
  have hf := sweep_forgets s
  refine ⟨fun n => ?_, hf.same.below ▸ h.nodup⟩
  by_cases hn : s.Swept n
  · have hunneeded := hn.not_needed
    refine ListedAtMost.listed_of_unknown ⟨fun p hp => ?_, fun c hc hroot => ?_⟩ (hf.parent_gone hn)
    · rw [hf.same.below] at hp
      exact absurd (((h.listed n).below p).mp hp).2 (by simp [hunneeded])
    · subst hc
      exact absurd hn ((hf.roots c).mp hroot).2
  · refine (h.listed n).congr (hf.parent_kept hn) (hf.same.needed n) (by simp [hf.same.below]) ?_
    intro c hc
    rw [hf.roots]
    exact and_iff_left (hc ▸ hn)

end Index

end ThreeXhaust.Harness
