import ThreeXhaust.Env.ConnectionCalls

/-!
# Runs of a connection

Starts that go on, frames that arrive, and from these every step and every run. `connection_correct`
says what holds of a connection whenever a step is over: one session is live at most, and every entry
of its log has the past that `Allowed` asks for.
-/

namespace ThreeXhaust.Env.Connection

variable {loose loose' : List Nat} {s : State} {e : Entry} {r : Nat}

/-! ## Starts go on -/

theorem Sound.teardown (h : Sound s) (i : Nat) (failure : Failure) :
    Sound (s.teardown i failure) := by
  obtain ⟨hinv, htorn, hsession⟩ := h.toInv.teardown i failure
  refine ⟨hinv, fun hclosed => ?_⟩
  rw [hsession]
  split
  · rfl
  · exact h.ended (htorn.closed ▸ hclosed)

theorem Sound.failStart (h : Sound s) (k : Nat) (failure : Failure) (stderr : String)
    (hhas : ∀ i, s.session = some i → ¬ Has (s.start k) i) :
    Sound (s.failStart k failure stderr) := by
  have hnoted : Inv [] (s.note (.startFailed k)) := h.toInv.note trivial (.startFailed k)
  refine ⟨hnoted.setStart k (by simp) (fun i hi hk => absurd hk (hhas i hi)) ?_, h.ended⟩
  rintro _ _ -
  exact List.mem_append_right _ (List.mem_singleton_self _)

/-- **A start goes on behind its race.** -/
theorem Sound.started (h : Sound s) (k : Nat) (stderr : String) : Sound (s.started k stderr) := by
  unfold State.started
  split
  · next i outcome hdecided =>
    have hfail (failure : Failure) : Sound ((s.teardown i failure).failStart k failure stderr) := by
      obtain ⟨-, htorn, hsession⟩ := h.toInv.teardown i failure
      refine (h.teardown i failure).failStart k failure stderr fun j hj hhas => ?_
      -- the start still has the session that is gone
      rw [htorn.decided k i outcome hdecided] at hhas
      cases hhas
      rw [hsession] at hj
      split at hj
      · cases hj
      · next hne => exact hne hj
    split
    · split
      · refine ⟨h.toInv.setStart k (by simp) (fun j _ hj => ?_) (by simp), h.ended⟩
        rw [hdecided] at hj
        cases hj
        exact .ready i
      · exact hfail _
    · exact hfail _
  · exact h

theorem Sound.forget (h : Sound s) (k : Nat) : Sound (s.forget k) := by
  unfold State.forget
  split
  · next failure stderr hfailed =>
    split
    · next hready =>
      refine ⟨⟨h.lawful, h.sessions, ?_, h.tables, h.requests⟩, h.ended⟩
      refine ⟨fun k' hk' => ?_, fun i hi => ?_, h.starts.failed, by rintro _ ⟨⟩⟩
      · have hready' := h.starts.command k' hk'
        rw [hready] at hready'
        cases hready'
        rw [show s.start k = .command from hk'] at hfailed
        cases hfailed
      · obtain ⟨k', hready', hhas⟩ := h.starts.remembered i hi
        rw [hready] at hready'
        cases hready'
        rw [hfailed] at hhas
        cases hhas
    · exact h
  · exact h

def State.spawned (s : State) (k : Nat) : State :=
  (({ s with sessions := s.sessions + 1, session := some (s.sessions + 1), nextId := s.nextId + 1 }.setSession
    (s.sessions + 1) ⟨[(s.nextId, .hello k)], true, k⟩).setStart k (.hello (s.sessions + 1))).note
    (.spawned (s.sessions + 1))

/-- **A daemon is spawned** where there is no session. -/
theorem Sound.spawned (h : Sound s) {k : Nat} (hcommand : s.start k = .command)
    (hclosed : s.closed ≠ true) : Sound (s.spawned k) := by
  have hready := h.starts.command k hcommand
  have hnone : s.session = none := by
    cases hsession : s.session with
    | none => rfl
    | some i =>
      obtain ⟨k', hready', hhas⟩ := h.starts.remembered i hsession
      rw [hready] at hready'
      cases hready'
      rw [hcommand] at hhas
      cases hhas
  -- only the current session can be live, and the new one has no entry in the log
  have hdead (j : Nat) : (s.table j).live = false := by
    rw [Bool.eq_false_iff]
    intro hlive
    rw [(h.sessions.current j).mp hlive] at hnone
    cases hnone
  have hnew : .spawned (s.sessions + 1) ∉ s.log := fun hmem =>
    Nat.not_succ_le_self _ (h.sessions.spawned _ hmem)
  have htorn : .torn (s.sessions + 1) ∉ s.log := fun hmem => by
    obtain ⟨before, hlive, hsub⟩ := h.lawful.past hmem
    exact hnew (hsub hlive.1)
  have htable (j : Nat) : (s.spawned k).table j =
      if j = s.sessions + 1 then ⟨[(s.nextId, .hello k)], true, k⟩ else s.table j := rfl
  have hstart (j : Nat) : (s.spawned k).start j =
      if j = k then .hello (s.sessions + 1) else s.start j := rfl
  have hlog : (s.spawned k).log = s.log ++ [.spawned (s.sessions + 1)] := rfl
  have hpending {j id r : Nat} (hmem : (id, Owner.request r) ∈ ((s.spawned k).table j).pending) :
      False := by
    rw [htable] at hmem
    split at hmem
    · cases List.mem_singleton.mp hmem
    · rw [h.sessions.dead j (hdead j)] at hmem
      cases hmem
  refine ⟨⟨h.lawful.snoc ⟨fun hmem => hclosed (h.sessions.closed.mpr hmem), hnew, fun j hlive => ?_⟩,
    ?_, ?_, ?_, ?_⟩, fun hc => absurd hc hclosed⟩
  · rw [← h.sessions.live j, hdead j] at hlive
    cases hlive
  · constructor
    case live =>
      intro j
      rw [htable, hlog]
      by_cases hj : j = s.sessions + 1
      · rw [if_pos hj, hj]
        refine iff_of_true rfl ⟨List.mem_append_right _ (List.mem_singleton_self _), ?_⟩
        rw [mem_note (by simp)]
        exact htorn
      · rw [if_neg hj, live_note (by rintro ⟨⟩; exact hj rfl) (by simp), h.sessions.live]
    case current =>
      intro j
      rw [htable]
      by_cases hj : j = s.sessions + 1
      · rw [if_pos hj, hj]
        exact iff_of_true rfl rfl
      · rw [if_neg hj, hdead j]
        refine iff_of_false (by decide) ?_
        rintro ⟨⟩
        exact hj rfl
    case dead =>
      intro j hj
      rw [htable] at hj ⊢
      split at hj
      · cases hj
      · next hne =>
        rw [if_neg hne]
        exact h.sessions.dead j hj
    case spawned =>
      intro j hj
      rw [hlog] at hj
      rcases List.mem_append.mp hj with hj | hj
      · exact Nat.le_succ_of_le (h.sessions.spawned j hj)
      · cases List.mem_singleton.mp hj
        exact Nat.le_refl _
    case closed =>
      rw [hlog, mem_note (by simp)]
      exact h.sessions.closed
  · constructor
    case command =>
      intro j hj
      rw [hstart] at hj
      split at hj
      · cases hj
      · exact h.starts.command j hj
    case remembered =>
      rintro i ⟨⟩
      refine ⟨k, hready, ?_⟩
      rw [hstart, if_pos rfl]
      exact .hello _
    case failed =>
      intro j hj failure stderr hf
      rw [hstart] at hf
      split at hf
      · cases hf
      · exact List.mem_append_left _ (h.starts.failed j hj failure stderr hf)
    case ready => exact h.starts.ready
  · constructor
    case ids =>
      intro j entry hmem
      rw [htable] at hmem
      split at hmem
      · rw [List.mem_singleton.mp hmem]
        exact Nat.lt_succ_self _
      · rw [h.sessions.dead j (hdead j)] at hmem
        cases hmem
    case registered =>
      intro r i id hmem
      rw [hlog, mem_note (by simp)] at hmem
      exact Nat.lt_succ_of_lt (h.tables.registered r i id hmem)
    case pending => exact fun j id r hmem => (hpending hmem).elim
    case keys =>
      intro j
      rw [htable]
      split
      · exact List.nodup_singleton _
      · exact h.tables.keys j
  · -- no request has a place while there is no session
    have hnoted := h.requests.note (e := .spawned (s.sessions + 1)) (by simp) (by simp) (by simp)
      (by simp) (by simp)
    refine { hnoted with place := fun r hr i id hs => ?_ }
    obtain ⟨hlog', hplace⟩ := hnoted.place r hr i id hs
    have hlive := (hplace.resolve_left List.not_mem_nil).1
    rw [hdead i] at hlive
    cases hlive

theorem Sound.decide (h : Sound s) (k : Nat) (outcome : Except Failure Data) :
    Sound (s.decide k outcome) := by
  have hsteady := steady_decide s k outcome
  refine ⟨h.toInv.decide k outcome, ?_⟩
  rw [hsteady.closed, hsteady.session]
  exact h.ended

theorem Sound.decideFor (h : Sound s) (i : Nat) (failure : Failure) :
    Sound (s.decideFor i failure) := by
  unfold State.decideFor
  split
  · split
    · exact h.decide _ _
    · exact h
  · exact h

/-- **A start goes on behind its command.** -/
theorem Sound.commanded (h : Sound s) (io : Serialisers) (k : Nat) (result : CommandResult) :
    Sound (s.commanded io k result) := by
  unfold State.commanded
  split
  · next hcommand =>
    have hfail (failure : Failure) : Sound (s.failStart k failure "") := by
      refine h.failStart k failure "" fun i _ hhas => ?_
      rw [hcommand] at hhas
      cases hhas
    have hspawn (hclosed : s.closed ≠ true) : Sound (s.spawn io k) := by
      have hspawned := h.spawned hcommand hclosed
      unfold State.spawn
      dsimp only
      split
      · exact hspawned.decide k _
      · exact (hspawned.toEnded.write _ (by rintro _ _ ⟨⟩) _).sound
    split
    · exact hfail _
    · split
      · exact hfail _
      · next hclosed =>
        split
        · exact hfail _
        · exact hfail _
        · exact hfail _
        · exact hspawn hclosed
  · exact h

/-! ## Frames -/

theorem Inv.settled_unique (h : Inv loose s) {how how' : Settlement}
    (hr : .settled r how ∈ s.log) (hr' : .settled r how' ∈ s.log) : how = how' := by
  by_contra hne
  have hentries : Entry.settled r how ≠ .settled r how' := by
    rintro ⟨⟩
    exact hne rfl
  rcases h.lawful.pair hr hr' hentries with ⟨before, hmem, hallowed⟩ | ⟨before, hmem, hallowed⟩
  · exact hallowed.1 how hmem
  · exact hallowed.1 how' hmem

theorem Inv.registered_unique (h : Inv loose s) {i j id id' : Nat}
    (hr : .registered r i id ∈ s.log) (hr' : .registered r j id' ∈ s.log) : id = id' := by
  by_contra hne
  have hentries : Entry.registered r i id ≠ .registered r j id' := by
    rintro ⟨⟩
    exact hne rfl
  rcases h.lawful.pair hr hr' hentries with ⟨before, hmem, hallowed⟩ | ⟨before, hmem, hallowed⟩
  · exact hallowed.2.2.1 i id hmem
  · exact hallowed.2.2.1 j id' hmem

theorem Inv.lookup_unique (h : Inv loose s) {i id : Nat} {owner owner' : Owner}
    (hlookup : (s.table i).pending.lookup id = some owner)
    (hmem : (id, owner') ∈ (s.table i).pending) : owner' = owner := by
  have hother := Assoc.lookup_of_mem (h.tables.keys i) hmem
  rw [hlookup] at hother
  exact (Option.some.inj hother).symm

theorem Inv.take (h : Inv loose s) {i id : Nat} {owner : Owner}
    (hlookup : (s.table i).pending.lookup id = some owner)
    (howner : ∀ r, owner = .request r → r ∈ loose) :
    Inv loose (s.setSession i
      { s.table i with pending := (s.table i).pending.filter (·.1 ≠ id) }) := by
  have hsub (j : Nat) : ((s.setSession i
      { s.table i with pending := (s.table i).pending.filter (·.1 ≠ id) }).table j).pending.Sublist
      (s.table j).pending := by
    rw [setSession_pending]
    split
    · next hj =>
      subst hj
      exact List.filter_sublist
    · exact List.Sublist.refl _
  have hlives (j : Nat) : ((s.setSession i
      { s.table i with pending := (s.table i).pending.filter (·.1 ≠ id) }).table j).live =
      (s.table j).live := by
    apply setSession_live
    rfl
  refine ⟨h.lawful, h.sessions.tables hlives fun j hj => ?_, h.starts, ?_, ?_⟩
  · have hnil := h.sessions.dead j hj
    have hless := hsub j
    rw [hnil] at hless
    exact List.sublist_nil.mp hless
  · exact {
      ids := fun j entry hmem => h.tables.ids j entry ((hsub j).subset hmem)
      registered := h.tables.registered
      pending := fun j id r hmem => h.tables.pending j id r ((hsub j).subset hmem)
      keys := fun j => (h.tables.keys j).sublist ((hsub j).map Prod.fst) }
  · refine { h.requests with place := fun r hr j id' hs => ?_ }
    obtain ⟨hlog, hplace⟩ := h.requests.place r hr j id' hs
    refine ⟨hlog, ?_⟩
    by_cases hloose : r ∈ loose
    · exact .inl hloose
    · obtain ⟨hlive, hpending, hwait⟩ := hplace.resolve_left hloose
      refine .inr ⟨?_, ?_, hwait⟩
      · exact (hlives j).trans hlive
      · rw [setSession_pending]
        split
        · next hj =>
          subst hj
          refine List.mem_filter.mpr ⟨hpending, ?_⟩
          have hne : id' ≠ id := by
            rintro rfl
            exact hloose (howner r (h.lookup_unique hlookup hpending).symm)
          simpa using hne
        · exact hpending

theorem Sound.unsettled_or_threw (h : Sound s) {i id : Nat} {how : Settlement}
    (hmem : (id, Owner.request r) ∈ (s.table i).pending) (hsettled : .settled r how ∈ s.log) :
    how = .threw := by
  obtain ⟨hregistered, hwhere⟩ := h.tables.pending i id r hmem
  rcases hwhere with hstatus | hthrew
  · have hr := h.requests.known r (.inl fun hun => hun i id hregistered)
    have hnot := h.toInv.unsettled hr (by rw [hstatus]; rintro ⟨⟩)
    exact absurd hsettled (hnot how)
  · exact h.toInv.settled_unique hsettled hthrew

/-- **A reply** settles who waits for its id: it is the first since the request was written. -/
theorem Sound.reply (h : Sound s) (hsending : s.sending = []) {i : Nat} {m : Message}
    (hlive : (s.table i).live = true) (hreceived : Allowed s.log (.received i m))
    (hreply : IsReply m) {owner : Owner}
    (hlookup : (s.table i).pending.lookup m.id = some owner) (outcome : Except Failure Data) :
    Sound (((s.note (.received i m)).setSession i
      { s.table i with pending := (s.table i).pending.filter (·.1 ≠ m.id) }).finish owner outcome
        (.reply i m)) := by
  have hmem := Assoc.mem_of_lookup hlookup
  cases owner with
  | hello k =>
    have hnoted : Inv [] (s.note (.received i m)) :=
      h.toInv.note hreceived (.received i m fun _ r hother => by
        cases h.toInv.lookup_unique hlookup hother)
    have htaken := hnoted.take (i := i) hlookup (by rintro r ⟨⟩)
    exact Sound.decide ⟨htaken, h.ended⟩ k outcome
  | request r =>
    have hnoted : Inv [r] (s.note (.received i m)) :=
      (h.toInv.mono (List.nil_subset _)).note hreceived (.received i m fun _ r' hother => by
        cases h.toInv.lookup_unique hlookup hother
        exact List.mem_singleton_self r)
    have htaken := hnoted.take (i := i) hlookup (by rintro r' ⟨⟩; exact List.mem_singleton_self r)
    obtain ⟨hregistered, hwhere⟩ := h.tables.pending i m.id r hmem
    have hr : r < s.requests := h.requests.known r (.inl fun hun => hun i m.id hregistered)
    have hlistener : Ended [r] (((s.note (.received i m)).setSession i
        { s.table i with pending := (s.table i).pending.filter (·.1 ≠ m.id) }).setRequest r
          { s.request r with listener := none }) := ⟨htaken.setRequest rfl rfl, h.ended⟩
    refine (hlistener.settle hr (.reply i m) (fun hunsettled => ?_) (.inr fun j id hpending => ?_)).sound
    · -- the request has its place, and no send is underway
      have hold : Unsettled s.log r := fun how hsettled =>
        hunsettled how (List.mem_append_left _ hsettled)
      have hstatus := hwhere.resolve_right (hold .threw)
      obtain ⟨-, hplace⟩ := h.requests.place r hr i m.id hstatus
      obtain ⟨-, -, hwait⟩ := hplace.resolve_left List.not_mem_nil
      rw [hsending] at hwait
      exact ⟨s.log, rfl, hwait.resolve_left List.not_mem_nil, hreply⟩
    · -- its entry was the only one
      have hshape : ((s.setSession i
          { s.table i with pending := (s.table i).pending.filter (·.1 ≠ m.id) }).table j).pending =
          if j = i then (s.table i).pending.filter (·.1 ≠ m.id) else (s.table j).pending :=
        setSession_pending j
      have hrest : (id, Owner.request r) ∈ (if j = i then
          (s.table i).pending.filter (·.1 ≠ m.id) else (s.table j).pending) := by
        rw [← hshape]
        exact hpending
      split at hrest
      · obtain ⟨hin, hne⟩ := List.mem_filter.mp hrest
        have hid := h.toInv.registered_unique (h.tables.pending i id r hin).1 hregistered
        exact absurd hid (by simpa using hne)
      · next hj =>
        rw [h.sessions.dead j (h.toInv.only_live hlive hj)] at hrest
        cases hrest

/-- **A frame** of a live session settles what waits for its id, or is an event. -/
theorem Sound.dispatch (h : Sound s) (hsending : s.sending = []) (i : Nat) (m : Message) :
    Sound (s.dispatch i m) := by
  unfold State.dispatch
  cases hlive : (s.table i).live with
  | false => exact h
  | true =>
    have hreceived : Allowed s.log (.received i m) := (h.sessions.live i).mp hlive
    simp only [not_true_eq_false, if_false]
    split
    · next hevent =>
      -- an event settles nothing
      have hnot : ¬ IsReply m := by
        rw [IsReply, hevent]
        decide
      have hnoted : Inv [] (s.note (.received i m)) :=
        h.toInv.note hreceived (.received i m fun hreply => absurd hreply hnot)
      split
      · next r hlookup =>
        split
        · have hmem := Assoc.mem_of_lookup hlookup
          refine ⟨hnoted.note ⟨hevent, ⟨s.log, rfl⟩, ?_, fun how hsettled => ?_⟩ (.event r i m),
            h.ended⟩
          · exact List.mem_append_left _ (h.tables.pending i m.id r hmem).1
          · have hold : .settled r how ∈ s.log := by
              rwa [show (s.note (.received i m)).log = s.log ++ [.received i m] from rfl,
                mem_note (by simp)] at hsettled
            exact h.unsettled_or_threw hmem hold
        · exact ⟨hnoted, h.ended⟩
      · exact ⟨hnoted, h.ended⟩
    · split
      · next hreply =>
        split
        · next hlookup =>
          refine ⟨h.toInv.note hreceived (.received i m fun _ r hmem => ?_), h.ended⟩
          have hsome := Assoc.lookup_of_mem (h.tables.keys i) hmem
          rw [show List.lookup m.id (s.table i).pending = none from hlookup] at hsome
          cases hsome
        · next owner hlookup =>
          exact h.reply hsending hlive hreceived hreply hlookup _
      · next hother =>
        exact ⟨h.toInv.note hreceived (.received i m fun hreply => absurd hreply hother), h.ended⟩

/-! ## Runs -/

theorem sound_init : Sound init where
  lawful := lawful_nil
  sessions := by
    constructor
    case live => exact fun i => iff_of_false Bool.false_ne_true (fun h => by cases h.1)
    case current => exact fun i => iff_of_false Bool.false_ne_true (by rintro ⟨⟩)
    case dead => exact fun _ _ => rfl
    case spawned => exact fun i h => by cases h
    case closed => exact iff_of_false (by decide) (by rintro ⟨⟩)
  starts := by
    constructor
    case command => exact fun k h => by cases h
    case remembered => exact fun i h => by cases h
    case failed => exact fun k h => absurd h (Nat.not_lt_zero k)
    case ready => exact fun k h => by cases h
  tables := by
    constructor
    case ids => exact fun i entry h => by cases h
    case registered => exact fun r i id h => by cases h
    case pending => exact fun i id r h => by cases h
    case keys => exact fun i => List.nodup_nil
  requests := by
    constructor
    case requested =>
      exact fun r => iff_of_false (fun ⟨bound, h⟩ => by cases h) (Nat.not_lt_zero r)
    case beyond => exact fun r _ => rfl
    case bound => exact fun r h => absurd h (Nat.not_lt_zero r)
    case known =>
      rintro r (h | h)
      · exact absurd (fun i id hmem => by cases hmem) h
      · exact absurd (fun how hmem => by cases hmem) h
    case settled => exact fun r h => absurd h (Nat.not_lt_zero r)
    case awaiting => exact fun r h => absurd h (Nat.not_lt_zero r)
    case place => exact fun r h => absurd h (Nat.not_lt_zero r)
    case nodup => exact List.nodup_nil
    case sending => exact fun r h => by cases h
  ended := by rintro ⟨⟩

/-- **Every step** keeps the invariant. -/
theorem Sound.step (h : Sound s) (io : Serialisers) (input : Input) : Sound (step io s input) := by
  unfold Connection.step
  split
  · exact h
  · next hguard =>
    cases input with
    | request ask => exact h.askFor ask
    | info =>
      show Sound s.connect.1
      rw [connect_eq]
      split_ifs with hclosed hready
      · exact h
      · exact (h.toEnded.begin hready).sound
      · exact h
    | kill id i => exact h.kill io id i
    | abort r => exact h.abort io r
    | close => exact h.close
    | returned throws =>
      cases hsending : s.sending with
      | nil => exact h
      | cons r rest => exact h.returned io hsending throws
    | resume r => exact h.resume r
    | commanded k result => exact h.commanded io k result
    | started k stderr => exact h.started k stderr
    | forget k => exact h.forget k
    | frame i m =>
      refine h.dispatch ?_ i m
      by_contra hne
      exact hguard ⟨hne, by rintro ⟨⟩⟩
    | corrupt i => exact h.teardown i _
    | processError i message => exact (h.decideFor i _).teardown i _
    | exit i =>
      dsimp only
      split
      · exact h.teardown i _
      · exact h
    | processClose i => exact (h.decideFor i _).teardown i _
    | timeout k => exact h.decide k _
    | silence i => exact h.teardown i _
    | ping i => exact (h.toEnded.write i (by rintro _ _ ⟨⟩) _).sound

theorem sound_run (io : Serialisers) (inputs : List Input) : Sound (run io inputs) := by
  have hfrom : ∀ s, Sound s → Sound (inputs.foldl (Connection.step io) s) := by
    induction inputs with
    | nil => exact fun s hs => hs
    | cons input rest ih => exact fun s hs => ih _ (hs.step io input)
  exact hfrom init sound_init

structure Correct (s : State) : Prop where
  /-- At most one session is live. -/
  oneLive : ∀ i j, (s.table i).live = true → (s.table j).live = true → i = j
  /-- Every entry of the log has the past that `Allowed` asks for: a promise settles at most once and
  by what its settlement says, events come before that, bytes go to live sessions of a connection
  that is not closed, a bound request to its own. -/
  lawful : Lawful Allowed s.log
  /-- After a teardown nothing waits in the session's table. -/
  torn : ∀ i, .torn i ∈ s.log → (s.table i).live = false ∧ (s.table i).pending = []
  /-- After `close` no session is live. -/
  closed : .closed ∈ s.log → ∀ i, (s.table i).live = false
  /-- A request that has not settled waits for a start, or in the table of the live session. -/
  waits : ∀ r bound, .requested r bound ∈ s.log → (∃ how, .settled r how ∈ s.log) ∨
    (∃ k < s.starts, (s.request r).status = .awaiting k) ∨
    ∃ i id, (s.table i).live = true ∧ (id, Owner.request r) ∈ (s.table i).pending

/-- **Requests and sessions of a connection**, in every order of its steps. -/
theorem connection_correct (io : Serialisers) (inputs : List Input) :
    Correct (run io inputs) := by
  have h := sound_run io inputs
  generalize run io inputs = s at h
  refine ⟨fun i j hi hj => ?_, h.lawful, fun i hi => ?_, fun hclosed i => ?_, fun r bound hr => ?_⟩
  · by_contra hne
    rw [h.toInv.only_live hj hne] at hi
    cases hi
  · have hdead : (s.table i).live = false := by
      rw [Bool.eq_false_iff]
      intro hlive
      exact ((h.sessions.live i).mp hlive).2 hi
    exact ⟨hdead, h.sessions.dead i hdead⟩
  · rw [Bool.eq_false_iff]
    intro hlive
    exact h.toInv.open_of_live h.ended hlive hclosed
  · have hlt := (h.requests.requested r).mp ⟨bound, hr⟩
    cases hstatus : (s.request r).status with
    | awaiting k =>
      obtain ⟨-, hwhere⟩ := h.requests.awaiting r hlt k hstatus
      exact .inr (.inl ⟨k, (hwhere.resolve_left List.not_mem_nil).1, rfl⟩)
    | registered i id =>
      obtain ⟨-, hplace⟩ := h.requests.place r hlt i id hstatus
      obtain ⟨hlive, hpending, -⟩ := hplace.resolve_left List.not_mem_nil
      exact .inr (.inr ⟨i, id, hlive, hpending⟩)
    | settled =>
      have hsettled := (h.requests.settled r hlt).mp hstatus
      simp only [Unsettled, not_forall, not_not] at hsettled
      exact .inl hsettled

def Settlement.byDaemon : Settlement → Prop
  | .reply .. | .teardown .. | .start .. => True
  | _ => False

/-- A request bound to a session that is not live is rejected at once, before anything is written,
torn down or started. -/
theorem rejected_at_once : ¬ ∀ io inputs r how,
    Entry.settled r how ∈ (run io inputs).log → how.byDaemon := by
  intro h
  let io : Serialisers := ⟨fun _ => [], fun _ => none, fun _ => none, fun _ => none, fun _ => ""⟩
  let ask : Ask := ⟨.null, [], some 7, false, none⟩
  have hlog : (run io [.request ask]).log =
      [.requested 0 (some 7), .settled 0 (.notLive 7)] := rfl
  have hmem : Entry.settled 0 (.notLive 7) ∈ (run io [.request ask]).log := by
    rw [hlog]
    exact List.mem_cons_of_mem _ (List.mem_singleton_self _)
  exact h io [.request ask] 0 (.notLive 7) hmem

end ThreeXhaust.Env.Connection
