import ThreeXhaust.Chord.Channel.Handling

/-!
# A channel handles its messages in order

The events of a run keep the invariant: the start, a message the link end takes, a promise that
settles and drains the held messages, and what the owner does on its own. `channel_in_order` is
what follows for the log of every run.
-/

namespace ThreeXhaust.Chord.Channel

variable {env : Env} {g : Prop} {rest rest' : List Bytes} {s : State} {bytes : Bytes}

attribute [local simp] State.note messages handledBytes queuedBytes sends arrivals holds settles

/-! ## Starting -/

/-- **What the link end had queued** is handled message by message. -/
theorem Inv.replay (h : Inv env True rest s) (hstarted : s.started = true) (now : Nat) :
    Inv env True [] (replay env now rest s) ∧ Steady s (replay env now rest s) := by
  induction rest generalizing s with
  | nil => exact ⟨h, Steady.refl s⟩
  | cons bytes rest ih =>
    rw [Channel.replay]
    split
    · next hclosed => exact ⟨h.anyRest hclosed, Steady.refl s⟩
    · next hopen =>
      obtain ⟨hinv, hsteady⟩ := h.receive (by simpa using hopen) hstarted now
      obtain ⟨hinv', hsteady'⟩ := ih hinv (hsteady.started.trans hstarted)
      exact ⟨hinv', hsteady.trans hsteady'⟩

/-- A start sends the hello first. -/
theorem Inv.sendHello {queued : List Bytes} (h : Inv env True rest s)
    (hs : s.state = .greeting queued) (hstarted : s.started = false) :
    Inv env True rest (Channel.linkSend env { s with started := true } env.hello) := by
  rw [linkSend_eq]
  split
  · next hclosed =>
    have hclosed : s.link.closed = true := hclosed
    exact { h with fresh := fun q hq hl => absurd hl (by simp [hclosed]) }
  · next hopen =>
    have hopen : ¬ s.link.closed = true := hopen
    have hlink : s.link.closed = false := by simpa using hopen
    obtain ⟨hnone, hsends⟩ := h.fresh queued hs hlink trivial
    rw [hstarted] at hsends
    have hsent : Inv env True rest (({ s with started := true } : State).note (.sent env.hello)) :=
      { h with
        lawful := h.lawful.snoc fun hended => hopen (h.ended.2 hended)
        messages := by simpa using h.messages
        greeting := fun q hq => by simpa using h.greeting q hq
        fresh := fun q hq hl hg => by
          refine ⟨by simpa using hnone, ?_⟩
          show sends (s.log ++ [.sent env.hello]) = [env.hello]
          rw [show sends (s.log ++ [.sent env.hello]) = sends s.log ++ [env.hello] by
            simp, hsends]
          rfl
        opened := fun ho hg => by simpa using h.opened ho hg
        first := fun ho => by simpa using h.first ho
        notClosed := fun hne => by simpa using h.notClosed hne
        closed := fun hc => by simpa using h.closed hc
        ended := by simpa using h.ended
        fault := fun hf => h.fault (by simpa using hf)
        promises := by simpa using h.promises
        taken := by simpa using h.taken
        arrived := fun hl => by
          simpa [State.heldRest] using h.arrived hl }
    split
    · exact hsent.closeLink
    · exact hsent

/-- The channel listens, and what was queued reaches it. -/
theorem Inv.onMessage (h : Inv env True s.link.queued s) (hstarted : s.started = true) (now : Nat) :
    Inv env True [] (onMessage env now s) ∧ (onMessage env now s).started = true ∧
      Delivered (onMessage env now s) := by
  unfold Channel.onMessage
  split
  · next hclosed => exact ⟨h.anyRest hclosed, hstarted, .inl hclosed⟩
  · have hlistening : Inv env True s.link.queued
        { s with link := { s.link with listener := true, queued := [] } } := { h with }
    obtain ⟨hinv, hsteady⟩ := hlistening.replay hstarted now
    exact ⟨hinv, hsteady.started.trans hstarted, hsteady.delivered (.inr ⟨rfl, rfl⟩)⟩

/-- The channel hears of the end of the link from now on. -/
theorem Inv.onClose (h : Inv env True [] s) (hrest : Delivered s) :
    Inv env True [] (onClose s) ∧ (onClose s).Registered ∧ (onClose s).started = s.started ∧
      Delivered (onClose s) := by
  unfold Channel.onClose
  split
  · next hclosed =>
    have hkept := channelClosed_kept s
    exact ⟨h.channelClosed hclosed, .inr (channelClosed_state s), hkept.started,
      hkept.delivered hrest⟩
  · next hopen =>
    exact ⟨{ h with listening := fun _ => by simpa using hopen }, .inl rfl, rfl, hrest⟩

/-! ## Releasing -/

theorem cut_steady (s : State) : Steady s (cut s) := by
  unfold Channel.cut
  split
  · exact ⟨rfl, .inl rfl, id⟩
  · exact Steady.refl s

theorem Inv.cut (h : Inv env g rest s) : Inv env g rest (cut s) := by
  unfold Channel.cut
  split
  · exact { h with
      held := fun hh hlive => h.held (by simpa using hh) hlive
      index := fun held hh => by
        obtain ⟨old, hold, rfl⟩ := Option.map_eq_some_iff.mp hh
        exact ⟨Nat.zero_le _, (h.index old hold).2⟩
      arrived := fun hl => by
        have harrived := h.arrived hl
        unfold State.heldRest at harrived ⊢
        cases hheld : s.held <;> simpa [hheld] using harrived }
  · exact h

/-- The held messages are handled in order until one of them holds the rest again. -/
theorem Inv.release_loop (queue todo : List Bytes) (next : Nat) (h : Inv env True rest s)
    (hregistered : s.Registered) (hstarted : s.started = true) (hidle : s.waiting = false)
    (hgreet : ∀ q, s.state ≠ .greeting q) (htodo : queue.drop next = todo)
    (hheld : s.state.isOpen = true → s.held = some { queue, next }) :
    Inv env True rest (releaseLoop env queue todo next s) ∧
      Steady s (releaseLoop env queue todo next s) := by
  induction todo generalizing next s with
  | nil =>
    refine ⟨{ h with
      held := fun _ _ => hidle
      index := by rintro _ ⟨⟩
      arrived := fun hl => ?_ }, rfl, .inl rfl, id⟩
    have hl : s.link.closed = false := hl
    have hlive : s.state ≠ .closed := fun hc => absurd hl (by simp [(h.closed hc).1])
    have harrived := h.arrived hl
    simp only [State.heldRest, hheld (isOpen_of hlive hgreet), htodo] at harrived ⊢
    exact harrived
  | cons bytes todo ih =>
    rw [releaseLoop]
    split
    · next ho =>
      dsimp only
      have hlive : s.state ≠ .closed := fun hc => by rw [hc] at ho; cases ho
      have hopen : s.link.closed = false :=
        hregistered.elim h.listening fun hc => absurd hc hlive
      have hsplit : queue.drop next = bytes :: queue.drop (next + 1) := by
        rw [htodo]
        have := List.drop_add_one_eq_tail_drop (l := queue) (i := next)
        rw [this, htodo]
        rfl
      have hready : Ready env bytes rest { s with held := some { queue, next := next + 1 } } := {
        h with
        openLink := hopen
        live := hlive
        idle := hidle
        started := hstarted
        held := by rintro ⟨⟩
        index := fun held hh => by
          cases hh
          refine ⟨?_, hgreet⟩
          have hlen := congrArg List.length hsplit
          simp only [List.length_drop, List.length_cons] at hlen
          show next + 1 ≤ queue.length
          omega
        next := by
          have harrived := h.arrived hopen
          simp only [State.heldRest, hheld ho, hsplit] at harrived ⊢
          exact harrived }
      have hinv := hready.handle
      have hframe := handle_frame env { s with held := some { queue, next := next + 1 } } bytes
      have hshifted : Steady s { s with held := some { queue, next := next + 1 } } :=
        ⟨rfl, .inl rfl, id⟩
      have hsteady := hshifted.trans hframe.toSteady
      generalize Channel.handle env { s with held := some { queue, next := next + 1 } } bytes = t
        at hinv hframe hsteady ⊢
      have hheldAfter := hframe.held _ rfl
      split
      · exact ⟨hinv.cut, hsteady.trans (cut_steady t)⟩
      · next hwaiting =>
        have hgreetAfter : ∀ q, t.state ≠ .greeting q := by
          rcases hheldAfter with hsome | hclosed
          · exact (hinv.index _ hsome).2
          · intro q hq
            rw [hclosed] at hq
            cases hq
        have htail : queue.drop (next + 1) = todo := by
          rw [hsplit] at htodo
          exact (List.cons.inj htodo).2
        obtain ⟨hloop, hsteady'⟩ := ih (next + 1) hinv (hsteady.registered hregistered)
          (hsteady.started.trans hstarted) (by simpa using hwaiting) hgreetAfter htail
          fun hopen => hheldAfter.resolve_right fun hclosed => by
            rw [hclosed] at hopen
            cases hopen
        exact ⟨hloop, hsteady.trans hsteady'⟩
    · exact ⟨h, Steady.refl s⟩

theorem Inv.release (h : Inv env True rest s) (hregistered : s.Registered)
    (hstarted : s.started = true) (hidle : s.waiting = false) :
    Inv env True rest (release env s) ∧ Steady s (release env s) := by
  unfold Channel.release
  split
  · exact ⟨h, Steady.refl s⟩
  · next held hheld =>
    exact h.release_loop held.queue _ held.next hregistered hstarted hidle (h.index held hheld).2
      rfl fun _ => hheld

/-! ## Runs -/

/-- The invariant between two events of a run. -/
structure Sound (env : Env) (s : State) : Prop where
  inv : Inv env True s.link.queued s
  registered : s.started = true → s.Registered
  unstarted : s.started = false → (∃ q, s.state = .greeting q) ∧ s.promises = 0 ∧
    s.link.closeListener = false
  listening : s.link.closed = false → s.link.listener = true → s.started = true
  delivered : s.started = true → Delivered s

theorem Sound.started_next {s' : State} (h : Sound env s) (hstarted : s.started = true)
    (hinv : Inv env True s.link.queued s') (hsteady : Steady s s') : Sound env s' where
  inv := by
    rcases hsteady.link with heq | hclosed
    · rw [heq]
      exact hinv
    · exact hinv.anyRest hclosed
  registered := fun _ => hsteady.registered (h.registered hstarted)
  unstarted := fun hs => by
    rw [hsteady.started, hstarted] at hs
    cases hs
  listening := fun _ _ => hsteady.started.trans hstarted
  delivered := fun _ => hsteady.delivered (h.delivered hstarted)

/-- Nothing an owner does starts a channel. -/
theorem act_unstarted (env : Env) {queued : List Bytes} (hs : s.state = .greeting queued)
    (hlisten : s.link.closeListener = false) (a : Act) :
    (∃ q, (act env s a).state = .greeting q) ∧ (act env s a).link.closeListener = false := by
  have hclose : (∃ q, (closeLink s).state = .greeting q) ∧
      (closeLink s).link.closeListener = false := by
    rw [closeLink_eq]
    split
    · exact ⟨⟨queued, hs⟩, hlisten⟩
    · rw [if_neg (by simp [hlisten])]
      exact ⟨⟨queued, hs⟩, rfl⟩
  cases a with
  | close => exact hclose
  | send m =>
    show (∃ q, (send env s m).state = .greeting q) ∧ (send env s m).link.closeListener = false
    unfold Channel.send
    split
    · next hc => rw [hs] at hc; cases hc
    · split
      · exact ⟨⟨queued, hs⟩, hlisten⟩
      · exact ⟨⟨_, rfl⟩, hlisten⟩
    · next ho => rw [hs] at ho; cases ho
  | tick now ping close =>
    show (∃ q, (tick env s now ping close).state = .greeting q) ∧
      (tick env s now ping close).link.closeListener = false
    unfold Channel.tick
    dsimp only
    split
    · exact hclose
    · rw [if_neg (by simp [hs, ChannelState.isOpen])]
      exact ⟨⟨queued, hs⟩, hlisten⟩

/-- What the owner does on its own. -/
theorem Sound.act (h : Sound env s) (a : Act) : Sound env (act env s a) := by
  have hkept := act_kept env s a
  cases hstarted : s.started with
  | true => exact h.started_next hstarted (h.inv.act a) hkept.toSteady
  | false =>
    obtain ⟨⟨queued, hs⟩, hpromises, hlisten⟩ := h.unstarted hstarted
    obtain ⟨hgreet, hlisten'⟩ := act_unstarted env hs hlisten a
    have hinv := h.inv.act a
    have hnot : ¬ (Channel.act env s a).started = true := by
      rw [hkept.started, hstarted]
      exact Bool.false_ne_true
    refine ⟨?_, fun ht => absurd ht hnot,
      fun _ => ⟨hgreet, hkept.promises.trans hpromises, hlisten'⟩, ?_, fun ht => absurd ht hnot⟩
    · rcases hkept.link with heq | hclosed
      · rw [heq]
        exact hinv
      · exact hinv.anyRest hclosed
    · intro hopen hl
      rcases hkept.link with heq | hclosed
      · rw [heq] at hopen hl
        rw [h.listening hopen hl] at hstarted
        cases hstarted
      · rw [hclosed] at hopen
        cases hopen

/-- **The start.** -/
theorem Sound.start (h : Sound env s) (hstarted : s.started = false) (now : Nat) :
    Sound env (start env now s) := by
  obtain ⟨⟨queued, hs⟩, -, -⟩ := h.unstarted hstarted
  have hhello := h.inv.sendHello hs hstarted
  have hkept := linkSend_kept env { s with started := true } env.hello
  have hqueue : Inv env True (linkSend env { s with started := true } env.hello).link.queued
      (linkSend env { s with started := true } env.hello) := by
    rcases hkept.link with heq | hclosed
    · rw [heq]
      exact hhello
    · exact hhello.anyRest hclosed
  obtain ⟨hmessages, hon, hrest⟩ := hqueue.onMessage hkept.started now
  obtain ⟨hinv, hregistered, hsame, hrest'⟩ := hmessages.onClose hrest
  have hon' : (Channel.start env now s).started = true := hsame.trans hon
  refine ⟨?_, fun _ => hregistered, fun hf => ?_, fun _ _ => hon', fun _ => hrest'⟩
  · rcases hrest' with hclosed | ⟨heq, -⟩
    · exact Inv.anyRest hinv hclosed
    · rw [show (Channel.start env now s).link.queued = [] from heq]
      exact hinv
  · rw [hon'] at hf
    cases hf

/-- A message that arrives is the last of those that wait. -/
theorem Inv.arrive (h : Inv env g rest s) (bytes : Bytes) :
    Inv env g (rest ++ [bytes]) (s.note (.arrived bytes)) :=
  { h with
    lawful := h.lawful.snoc trivial
    messages := by simpa using h.messages
    greeting := fun q hq => by simpa using h.greeting q hq
    fresh := fun q hq hl hg => by
      obtain ⟨hnone, hsends⟩ := h.fresh q hq hl hg
      refine ⟨by simpa using hnone, ?_⟩
      show sends (s.log ++ [.arrived bytes]) = if s.started then _ else _
      rw [← hsends]
      simp
    opened := fun ho hg => by simpa using h.opened ho hg
    first := fun ho => by simpa using h.first ho
    notClosed := fun hne => by simpa using h.notClosed hne
    closed := fun hc => by simpa using h.closed hc
    ended := by simpa using h.ended
    fault := fun hf => h.fault (by simpa using hf)
    promises := by simpa using h.promises
    taken := by
      have htaken := h.taken
      simp only [State.note, handledBytes, Channel.arrivals, List.filterMap_append] at *
      simpa using htaken.trans (List.prefix_append _ _)
    arrived := fun hl => by
      have harrived := h.arrived hl
      show Channel.arrivals (s.log ++ [.arrived bytes]) =
        handledBytes (s.log ++ [.arrived bytes]) ++ s.heldRest ++ (rest ++ [bytes])
      simp only [handledBytes, Channel.arrivals, List.filterMap_append] at *
      simp [harrived] }

/-- **The link end takes a message.** -/
theorem Sound.deliver (h : Sound env s) (bytes : Bytes) (now : Nat) :
    Sound env (deliver env now s bytes) := by
  unfold Channel.deliver
  split
  · exact h
  · next hclosed =>
    have hopen : s.link.closed = false := by simpa using hclosed
    have harrive := h.inv.arrive bytes
    dsimp only
    split
    · next hl =>
      have hstarted := h.listening hopen hl
      obtain ⟨hqueue, -⟩ := (h.delivered hstarted).resolve_left hclosed
      rw [hqueue] at harrive
      obtain ⟨hinv, hsteady⟩ := Inv.receive harrive hopen hstarted now
      refine h.started_next hstarted ?_ ((note_frame s _).toSteady.trans hsteady)
      rw [hqueue]
      exact hinv
    · next hl =>
      have hl : s.link.listener = false := by simpa using hl
      exact {
        inv := { harrive with }
        registered := h.registered
        unstarted := h.unstarted
        listening := fun _ ht => by
          have ht : s.link.listener = true := ht
          rw [hl] at ht
          cases ht
        delivered := fun hs => (h.delivered hs).elim .inl fun hd => by
          rw [hd.2] at hl
          cases hl }

/-- A promise settles, and the messages behind it are no longer held. -/
theorem Inv.settle (h : Inv env True rest s) (hp : s.promises ≠ 0) (waiting : Bool)
    (hwaiting : waiting = true → s.waiting = true) :
    Inv env True rest ({ s with promises := s.promises - 1, waiting }.note .settled) :=
  { h with
    lawful := h.lawful.snoc trivial
    messages := by simpa using h.messages
    greeting := fun q hq => by simpa using h.greeting q hq
    fresh := fun q hq hl hg => by
      obtain ⟨hnone, hsends⟩ := h.fresh q hq hl hg
      refine ⟨by simpa using hnone, ?_⟩
      show sends (s.log ++ [.settled]) = if s.started then _ else _
      rw [← hsends]
      simp
    opened := fun ho hg => by simpa using h.opened ho hg
    first := fun ho => by simpa using h.first ho
    notClosed := fun hne => by simpa using h.notClosed hne
    closed := fun hc => by simpa using h.closed hc
    ended := by simpa using h.ended
    fault := fun hf => h.fault (by simpa using hf)
    promises := by
      have hcount := h.promises
      simp only [State.note, holds, settles, List.countP_append] at *
      simp
      omega
    onePromise := by
      have hone := h.onePromise.1
      show s.promises - 1 ≤ 1 ∧ (s.promises - 1 = 1 → waiting = true)
      omega
    held := fun hh hlive => by
      have hidle := h.held hh hlive
      cases waiting with
      | false => rfl
      | true => rw [hwaiting rfl] at hidle; cases hidle
    taken := by simpa using h.taken
    arrived := fun hl => by
      simpa [State.heldRest] using h.arrived hl }

/-- **Every event keeps the invariant.** -/
theorem Sound.step (h : Sound env s) (e : Event) : Sound env (step env s e) := by
  cases e with
  | start now =>
    show Sound env (if s.started then s else Channel.start env now s)
    split
    · exact h
    · next hs => exact h.start (by simpa using hs) now
  | deliver bytes now => exact h.deliver bytes now
  | act a => exact h.act a
  | settle =>
    show Sound env (if s.promises = 0 then s else Channel.release env
      ({ s with promises := s.promises - 1, waiting := false }.note .settled))
    split
    · exact h
    · next hp =>
      have hstarted : s.started = true := by
        by_contra hne
        exact hp (h.unstarted (by simpa using hne)).2.1
      have hsettled := h.inv.settle hp false nofun
      obtain ⟨hinv, hsteady⟩ := hsettled.release (h.registered hstarted) hstarted rfl
      have hsettle : Steady s
          ({ s with promises := s.promises - 1, waiting := false }.note .settled) :=
        ⟨rfl, .inl rfl, id⟩
      exact h.started_next hstarted hinv (hsettle.trans hsteady)
  | reject =>
    show Sound env (if s.promises = 0 then s else Channel.failed
      ({ s with promises := s.promises - 1 }.note .settled))
    split
    · exact h
    · next hp =>
      have hstarted : s.started = true := by
        by_contra hne
        exact hp (h.unstarted (by simpa using hne)).2.1
      have hsettled := h.inv.settle hp s.waiting id
      have hsteady : Steady s ({ s with promises := s.promises - 1 }.note .settled) :=
        ⟨rfl, .inl rfl, id⟩
      exact h.started_next hstarted hsettled.failed (hsteady.trans (failed_frame _).toSteady)

theorem Sound.init (env : Env) : Sound env init where
  inv := {
    lawful := lawful_nil
    messages := rfl
    greeting := fun q hq => by
      cases hq
      exact ⟨List.not_mem_nil, rfl⟩
    fresh := fun _ _ _ _ => ⟨rfl, rfl⟩
    opened := nofun
    first := nofun
    notClosed := fun _ => List.not_mem_nil
    closed := nofun
    ended := by simp [Channel.init]
    fault := fun hf => absurd hf List.not_mem_nil
    promises := rfl
    onePromise := ⟨Nat.zero_le 1, nofun⟩
    held := fun _ _ => rfl
    taken := List.prefix_rfl
    arrived := fun _ => rfl
    listening := nofun
    index := nofun }
  registered := nofun
  unstarted := fun _ => ⟨⟨[], rfl⟩, rfl, rfl⟩
  listening := nofun
  delivered := nofun

theorem Sound.run (env : Env) (events : List Event) : Sound env (run env events) := by
  have hall : ∀ (events : List Event) (s : State), Sound env s →
      Sound env (events.foldl (Channel.step env) s) := by
    intro events
    induction events with
    | nil => exact fun _ h => h
    | cons e events ih => exact fun s h => ih _ (h.step e)
  exact hall events Channel.init (Sound.init env)

/-- What was handled is the beginning of what arrived behind the first message. -/
theorem Core.messages_prefix (h : Core env g s) :
    Channel.messages s.log <+: (arrivals s.log).tail.filterMap (ordinary env) := by
  have htail : (handledBytes s.log).tail <+: (arrivals s.log).tail := by
    obtain ⟨more, hmore⟩ := h.taken
    rw [← hmore]
    cases handledBytes s.log with
    | nil => exact List.nil_prefix
    | cons first rest => exact List.prefix_append rest more
  rw [h.messages]
  exact htail.filterMap _

/-- **A channel delivers in order**, in every run: each entry of the log was allowed by those before
it, what the handler was called with is a prefix of the ordinary messages received behind the first
one, and all of them when nothing is held; and the handler has heard of the close exactly when the
link of a started channel is closed. -/
theorem channel_in_order (env : Env) (events : List Event) :
    let s := run env events
    Lawful (Allowed env) s.log ∧
      messages s.log <+: (arrivals s.log).tail.filterMap (ordinary env) ∧
      (s.state.isOpen = true → s.held = none →
        messages s.log = (arrivals s.log).tail.filterMap (ordinary env)) ∧
      (s.started = true → (.ended ∈ s.log ↔ .closed ∈ s.log)) := by
  intro s
  have hsound : Sound env s := Sound.run env events
  have hinv := hsound.inv
  refine ⟨hinv.lawful, hinv.messages_prefix, fun ho hheld => ?_, fun hstarted => ?_⟩
  · have hlive : s.state ≠ .closed := fun hc => by rw [hc] at ho; cases ho
    have hstarted : s.started = true := by
      by_contra hne
      obtain ⟨⟨q, hq⟩, -⟩ := hsound.unstarted (by simpa using hne)
      rw [hq] at ho
      cases ho
    have hopen : s.link.closed = false :=
      (hsound.registered hstarted).elim hinv.listening fun hc => absurd hc hlive
    obtain ⟨hqueue, -⟩ := (hsound.delivered hstarted).resolve_left (by simp [hopen])
    have harrived := hinv.arrived hopen
    simp only [State.heldRest, hheld, hqueue, List.append_nil] at harrived
    rw [hinv.messages, harrived]
  · constructor
    · intro hended
      by_contra hne
      have hlive : s.state ≠ .closed := fun hc => hne (hinv.closed hc).2
      have hopen := (hsound.registered hstarted).elim hinv.listening fun hc => absurd hc hlive
      rw [hinv.ended.2 hended] at hopen
      cases hopen
    · intro hclosed
      by_contra hne
      have hlive : s.state ≠ .closed := fun hc => hne (hinv.ended.1 (hinv.closed hc).1)
      exact hinv.notClosed hlive hclosed

def quietEnv : Env where
  encode _ := some [7]
  decode bytes := if bytes = [0] then
    some { origin := none, body := .hello protocolVersion "" 1 } else none
  trusted := true
  hello := [1]
  handler _ := { acts := [], result := .returns }
  breaks _ := false

/-- What was sent before the handshake is on the link before `opened` is called, not after it. -/
theorem queued_sent_before_opened :
    ¬ ∀ (env : Env) (events : List Event) (before behind : List Entry),
      (run env events).log = before ++ .opened :: behind →
        (queuedBytes before).map .sent <+: behind := by
  intro h
  have hprefix := h quietEnv [.act (.send pingMessage), .start 0, .deliver [0] 0]
    [.queued [7], .sent [1], .arrived [0], .handled [0], .sent [7]] [] rfl
  have hlen := hprefix.length_le
  simp at hlen

end ThreeXhaust.Chord.Channel
