import ThreeXhaust.Chord.Channel.Invariant

/-!
# Handling one message

`Channel.#handle` keeps the invariant: the first message opens the channel or closes the link, a
later one is the channel's own or the handler's, and every protocol error closes the link.
-/

namespace ThreeXhaust.Chord.Channel

variable {env : Env} {g : Prop} {rest rest' : List Bytes} {s : State}

attribute [local simp] State.note messages handledBytes queuedBytes sends arrivals holds settles endLink
  hold

/-! ## Failing and holding -/

/-- The state a protocol error leaves on an open link, before the channel hears of its close. -/
theorem Inv.fault_endLink (h : Inv env g rest s) (hopen : s.link.closed = false) :
    Inv env g rest' (Channel.endLink ((s.note .fault).note .reported)) where
  lawful := by
    have hlog : Entry.ended ∉ s.log := fun hmem => by
      rw [h.ended.2 hmem] at hopen
      cases hopen
    have hfault : Lawful (Allowed env) (s.log ++ [.fault]) := h.lawful.snoc trivial
    have hreported : Lawful (Allowed env) (s.log ++ [.fault] ++ [.reported]) :=
      hfault.snoc trivial
    exact hreported.snoc (by simpa [Allowed] using hlog)
  messages := by simpa using h.messages
  greeting := fun q hq => by simpa using h.greeting q hq
  fresh := fun q hq hclosed => by cases hclosed
  opened := fun hs hg => by simpa using h.opened hs hg
  first := fun hs => by simpa using h.first hs
  notClosed := fun hs => by simpa using h.notClosed hs
  closed := fun hs => absurd (h.closed hs).1 (by simp [hopen])
  ended := by simp
  fault := fun _ => rfl
  promises := by simpa using h.promises
  onePromise := h.onePromise
  held := h.held
  taken := by simpa using h.taken
  arrived := fun hclosed => by cases hclosed
  listening := fun hl => by cases hl
  index := h.index

/-- On a closed link a fault and its report change nothing. -/
theorem Inv.fault_closed {e : Entry} (h : Inv env g rest s) (hclosed : s.link.closed = true)
    (he : e = .fault ∨ e = .reported) : Inv env g rest' (s.note e) := by
  have hkeep : Inv env g rest' s := h.anyRest hclosed
  rcases he with rfl | rfl <;> exact {
    lawful := hkeep.lawful.snoc trivial
    messages := by simpa using hkeep.messages
    greeting := fun q hq => by simpa using hkeep.greeting q hq
    fresh := fun q hq hl => absurd hl (by simp [hclosed])
    opened := fun ho hg => by simpa using hkeep.opened ho hg
    first := fun ho => by simpa using hkeep.first ho
    notClosed := fun hne => by simpa using hkeep.notClosed hne
    closed := fun hc => by simpa using hkeep.closed hc
    ended := by simpa using hkeep.ended
    fault := fun _ => hclosed
    promises := by simpa using hkeep.promises
    onePromise := hkeep.onePromise
    held := hkeep.held
    taken := by simpa using hkeep.taken
    arrived := fun hl => absurd hl (by simp [hclosed])
    listening := hkeep.listening
    index := hkeep.index }

theorem failed_of_closed (h : s.state = .closed) : failed s = s.note .fault := by
  unfold Channel.failed
  dsimp only
  rw [show (s.note .fault).state = .closed from h]

theorem failed_of_not (h : s.state ≠ .closed) :
    failed s = closeLink ((s.note .fault).note .reported) := by
  unfold Channel.failed
  dsimp only
  split
  · next hs => exact absurd hs h
  · rfl

/-- **A protocol error closes the link.** -/
theorem Inv.failed (h : Inv env g rest s) : Inv env g rest' (failed s) := by
  by_cases hs : s.state = .closed
  · rw [failed_of_closed hs]
    exact h.fault_closed (h.closed hs).1 (.inl rfl)
  · rw [failed_of_not hs]
    by_cases hclosed : s.link.closed = true
    · have hsame := closeLink_of_closed (s := (s.note .fault).note .reported) hclosed
      rw [hsame]
      have hfault : Inv env g rest' (s.note .fault) := h.fault_closed hclosed (.inl rfl)
      exact hfault.fault_closed hclosed (.inr rfl)
    · have hopen : s.link.closed = false := by simpa using hclosed
      have hend : Inv env g rest' (Channel.endLink ((s.note .fault).note .reported)) :=
        h.fault_endLink hopen
      rw [closeLink_eq]
      split
      · next hc => exact absurd hc hclosed
      · split
        · exact hend.channelClosed rfl
        · exact hend

/-- The messages behind one whose handler is at work are held. -/
theorem Inv.hold (h : Inv env g rest s) (hp : s.promises = 0)
    (hgreet : ∀ q, s.state ≠ .greeting q) : Inv env g rest (hold s) where
  lawful := h.lawful.snoc trivial
  messages := by simpa using h.messages
  greeting := fun q hq => by simpa using h.greeting q hq
  fresh := fun q hq hl hg => by
    obtain ⟨hhandled, hsends⟩ := h.fresh q hq hl hg
    refine ⟨by simpa using hhandled, ?_⟩
    show sends (s.log ++ [.held]) = if s.started then _ else _
    rw [← hsends]
    simp
  opened := fun ho hg => by simpa using h.opened ho hg
  first := fun ho => by simpa using h.first ho
  notClosed := fun hne => by simpa using h.notClosed hne
  closed := fun hc => by simpa using h.closed hc
  ended := by simpa using h.ended
  fault := fun hf => h.fault (by simpa using hf)
  promises := by
    have := h.promises
    simp only [Channel.hold, State.note, holds, settles, List.countP_append] at *
    simp
    omega
  onePromise := by
    simp [hp]
  held := by rintro ⟨⟩
  taken := by simpa using h.taken
  arrived := fun hl => by
    have harrived := h.arrived hl
    have hrest : (Channel.hold s).heldRest = s.heldRest := by
      unfold State.heldRest Channel.hold State.note
      cases s.held <;> rfl
    rw [hrest]
    simpa using harrived
  listening := h.listening
  index := fun held hh => by
    refine ⟨?_, hgreet⟩
    have heq : s.held.getD { queue := [], next := 0 } = held := Option.some.inj hh
    cases hs : s.held with
    | none =>
      rw [hs] at heq
      rw [← heq]
      exact Nat.le_refl 0
    | some old =>
      rw [hs] at heq
      exact (h.index held (hs.trans (congrArg some heq))).1

/-! ## Handling one message

A message is handled on an open link while no earlier one waits: `Ready`. The held messages behind
it stay held. -/

structure Ready (env : Env) (bytes : Bytes) (rest : List Bytes) (s : State) : Prop
    extends Core env True s where
  openLink : s.link.closed = false
  live : s.state ≠ .closed
  idle : s.waiting = false
  started : s.started = true
  next : arrivals s.log = handledBytes s.log ++ bytes :: s.heldRest ++ rest

variable {bytes : Bytes}

theorem Ready.noPromise (h : Ready env bytes rest s) : s.promises = 0 := by
  have hone := h.onePromise
  have hidle := h.idle
  by_contra hne
  have hwaiting := hone.2 (by omega)
  rw [hidle] at hwaiting
  cases hwaiting

theorem Ready.noFault (h : Ready env bytes rest s) : .fault ∉ s.log := fun hf => by
  have hclosed := h.fault hf
  rw [h.openLink] at hclosed
  cases hclosed

theorem Ready.notEnded (h : Ready env bytes rest s) : .ended ∉ s.log := fun he => by
  have hclosed := h.ended.2 he
  rw [h.openLink] at hclosed
  cases hclosed

/-- **One message was handled**, whatever its entries are. -/
theorem Ready.after (h : Ready env bytes rest s) {g : Prop} {es : List Entry}
    (hes : es = [.handled bytes] ∨ ∃ m, es = [.handled bytes, .message m])
    (hgreet : ∀ q, s.state = .greeting q → ¬ g) (hlawful : Lawful (Allowed env) (s.log ++ es))
    (hmessages : messages (s.log ++ es) =
      (handledBytes (s.log ++ es)).tail.filterMap (ordinary env)) :
    Inv env g rest { s with log := s.log ++ es } := by
  have hnext := h.next
  have hhandled : handledBytes (s.log ++ es) = handledBytes s.log ++ [bytes] := by
    rcases hes with rfl | ⟨m, rfl⟩ <;> simp
  have harrivals : arrivals (s.log ++ es) = arrivals s.log := by
    rcases hes with rfl | ⟨m, rfl⟩ <;> simp
  have hqueued : queuedBytes (s.log ++ es) = queuedBytes s.log := by
    rcases hes with rfl | ⟨m, rfl⟩ <;> simp
  have hpromises : holds (s.log ++ es) = holds s.log ∧ settles (s.log ++ es) = settles s.log := by
    rcases hes with rfl | ⟨m, rfl⟩ <;> simp
  have hmem : ∀ e, (e = .opened ∨ e = .closed ∨ e = .ended ∨ e = .fault) →
      (e ∈ s.log ++ es ↔ e ∈ s.log) := by
    rcases hes with rfl | ⟨m, rfl⟩ <;> rintro e (rfl | rfl | rfl | rfl) <;> simp
  exact {
    lawful := hlawful
    messages := hmessages
    greeting := fun q hq => by
      obtain ⟨hopened, hqueue⟩ := h.greeting q hq
      exact ⟨fun ho => hopened ((hmem _ (by simp)).1 ho), hqueued.trans hqueue⟩
    fresh := fun q hq _ hg => absurd hg (hgreet q hq)
    opened := fun ho _ => (hmem _ (by simp)).2 (h.opened ho trivial)
    first := fun _ => by
      show handledBytes (s.log ++ es) ≠ []
      rw [hhandled]
      simp
    notClosed := fun hne hc => h.notClosed hne ((hmem _ (by simp)).1 hc)
    closed := fun hc => absurd hc h.live
    ended := h.ended.trans (hmem _ (by simp)).symm
    fault := fun hf => h.fault ((hmem _ (by simp)).1 hf)
    promises := by
      show holds (s.log ++ es) = settles (s.log ++ es) + s.promises
      rw [hpromises.1, hpromises.2]
      exact h.promises
    onePromise := h.onePromise
    held := h.held
    taken := by
      show handledBytes (s.log ++ es) <+: arrivals (s.log ++ es)
      rw [hhandled, harrivals, hnext]
      exact ⟨s.heldRest ++ rest, by simp⟩
    arrived := fun _ => by
      show arrivals (s.log ++ es) = handledBytes (s.log ++ es) ++ s.heldRest ++ rest
      rw [hhandled, harrivals, hnext]
      simp
    listening := h.listening
    index := h.index }

theorem isOpen_of (hlive : s.state ≠ .closed) (hgreet : ∀ q, s.state ≠ .greeting q) :
    s.state.isOpen = true := by
  cases hs : s.state with
  | greeting q => exact absurd hs (hgreet q)
  | opened peer calls => rfl
  | closed => exact absurd hs hlive

theorem Core.tail_handled (h : Core env g s) (ho : s.state.isOpen = true) (bytes : Bytes) :
    (handledBytes s.log ++ [bytes]).tail.filterMap (ordinary env) =
      Channel.messages s.log ++ [bytes].filterMap (ordinary env) := by
  rw [List.tail_append_of_ne_nil (h.first ho), List.filterMap_append, h.messages]

/-- A message that is none of the handler's. -/
theorem Ready.handled (h : Ready env bytes rest s) {g : Prop}
    (hgreet : ∀ q, s.state = .greeting q → ¬ g)
    (hnone : s.state.isOpen = true → ordinary env bytes = none) :
    Inv env g rest (s.note (.handled bytes)) := by
  apply h.after (.inl rfl) hgreet (h.lawful.snoc trivial)
  have hsplit : handledBytes (s.log ++ [.handled bytes]) = handledBytes s.log ++ [bytes] := by simp
  have hmessages : messages (s.log ++ [.handled bytes]) = messages s.log := by simp
  rw [hsplit, hmessages]
  cases hs : s.state with
  | greeting q =>
    obtain ⟨hhandled, -⟩ := h.fresh q hs h.openLink trivial
    rw [h.messages, hhandled]
    rfl
  | opened peer calls =>
    have ho : s.state.isOpen = true := by rw [hs]; rfl
    rw [h.toCore.tail_handled ho, List.filterMap_cons, hnone ho]
    simp
  | closed => exact absurd hs h.live

/-- A message the handler gets. -/
theorem Ready.message {m : Message} (h : Ready env bytes rest s)
    (ho : s.state.isOpen = true) (hm : ordinary env bytes = some m) :
    Inv env True rest ((s.note (.handled bytes)).note (.message m)) := by
  have hstep : ((s.note (.handled bytes)).note (.message m)) =
      { s with log := s.log ++ [.handled bytes, .message m] } := by simp
  rw [hstep]
  apply h.after (.inr ⟨m, rfl⟩) fun q hq => by rw [hq] at ho; cases ho
  · have hhandled : Lawful (Allowed env) (s.log ++ [.handled bytes]) := h.lawful.snoc trivial
    have hpromises := h.promises
    rw [h.noPromise] at hpromises
    have hallowed : Allowed env (s.log ++ [.handled bytes]) (.message m) := by
      refine ⟨by simpa using h.opened ho trivial, by simpa using h.notEnded,
        by simpa using h.notClosed h.live, by simpa using h.noFault, ?_⟩
      simpa using hpromises
    have hboth := hhandled.snoc hallowed
    rwa [List.append_assoc] at hboth
  · have hsplit : handledBytes (s.log ++ [.handled bytes, .message m]) =
        handledBytes s.log ++ [bytes] := by simp
    have hmessages : messages (s.log ++ [.handled bytes, .message m]) = messages s.log ++ [m] := by
      simp
    rw [hsplit, hmessages, h.toCore.tail_handled ho, List.filterMap_cons, hm]
    rfl

/-! ## Dispatching -/

/-- **A later message** is the channel's own, or the handler's. -/
theorem Ready.dispatch {m : Message} (h : Ready env bytes rest s) (ho : s.state.isOpen = true)
    (hm : Channel.decode env bytes = some m) :
    Inv env True rest (dispatch env (s.note (.handled bytes)) m) := by
  have hgreet : ∀ q, s.state = .greeting q → ¬ True := fun q hq => by rw [hq] at ho; cases ho
  have hcontrol : ordinary env bytes = none → Inv env True rest (s.note (.handled bytes)) :=
    fun hnone => h.handled hgreet fun _ => hnone
  unfold Channel.dispatch
  split
  · next hbody => exact (hcontrol (by simp [ordinary, hm, hbody])).failed
  · next hbody =>
    have hping := hcontrol (by simp [ordinary, hm, hbody])
    split
    · exact hping.failed
    · exact hping.linkSend (not_greeting_of_open ho) _
  · next hbody => exact hcontrol (by simp [ordinary, hm, hbody])
  · next hhello hping hpong =>
    have hordinary : ordinary env bytes = some m := by
      unfold ordinary
      rw [hm]
      dsimp only
      split
      · next hbody => exact absurd hbody (hhello _ _ _)
      · next hbody => exact absurd hbody hping
      · next hbody => exact absurd hbody hpong
      · rfl
    have hcall : Inv env True rest (call env (s.note (.handled bytes)) (.message m)).1 :=
      (h.message ho hordinary).call
    have hkept := call_kept env (s.note (.handled bytes)) (.message m)
    split
    · next hresult =>
      rw [hresult] at hcall
      exact hcall
    · next hresult =>
      rw [hresult] at hcall
      exact hcall.failed
    · next hresult =>
      rw [hresult] at hcall hkept
      exact hcall.hold (hkept.promises.trans h.noPromise)
        (hkept.greeted (not_greeting_of_open ho))

/-! ## Greeting -/

theorem sendAll_of_closed (env : Env) (queued : List Bytes) (h : s.link.closed = true) :
    queued.foldl (linkSend env) s = s := by
  induction queued with
  | nil => rfl
  | cons bytes queued ih =>
    rw [List.foldl_cons, linkSend_eq, if_pos h]
    exact ih

/-- On an open link everything that was queued is sent, in order. -/
theorem sendAll_log (env : Env) (queued : List Bytes) (s : State)
    (hopen : (queued.foldl (linkSend env) s).link.closed = false) :
    (queued.foldl (linkSend env) s).log = s.log ++ queued.map .sent := by
  induction queued generalizing s with
  | nil => simp
  | cons bytes queued ih =>
    rw [List.foldl_cons] at hopen ⊢
    rw [ih _ hopen]
    by_cases hclosed : (linkSend env s bytes).link.closed = true
    · rw [sendAll_of_closed env queued hclosed, hclosed] at hopen
      cases hopen
    · have hlog : (linkSend env s bytes).log = s.log ++ [.sent bytes] := by
        rw [linkSend_eq] at hclosed ⊢
        split at hclosed
        · next h => exact absurd h hclosed
        · split at hclosed
          · exact absurd (closeLink_closed _) hclosed
          · next h hbreaks => rw [if_neg h, if_neg hbreaks]; rfl
      rw [hlog]
      simp

theorem Inv.sendAll (h : Inv env g rest s) (hs : ∀ q, s.state ≠ .greeting q)
    (queued : List Bytes) : Inv env g rest (queued.foldl (Channel.linkSend env) s) := by
  induction queued generalizing s with
  | nil => exact h
  | cons bytes queued ih =>
    exact ih (h.linkSend hs bytes) ((linkSend_kept env s bytes).greeted hs)

theorem sendAll_kept (env : Env) (queued : List Bytes) (s : State) :
    Kept s (queued.foldl (linkSend env) s) := by
  induction queued generalizing s with
  | nil => exact Kept.refl s
  | cons bytes queued ih => exact (linkSend_kept env s bytes).trans (ih _)

theorem Inv.noteOpened (h : Inv env False rest s) (hgreet : ∀ q, s.state ≠ .greeting q)
    (hopened : Allowed env s.log .opened) : Inv env True rest (s.note .opened) where
  lawful := h.lawful.snoc hopened
  messages := by simpa using h.messages
  greeting := fun q hq => absurd hq (hgreet q)
  fresh := fun q hq => absurd hq (hgreet q)
  opened := fun _ _ => by simp
  first := fun ho => by simpa using h.first ho
  notClosed := fun hne => by simpa using h.notClosed hne
  closed := fun hc => by simpa using h.closed hc
  ended := by simpa using h.ended
  fault := fun hf => h.fault (by simpa using hf)
  promises := by simpa using h.promises
  onePromise := h.onePromise
  held := h.held
  taken := by simpa using h.taken
  arrived := fun hl => by
    simpa [State.heldRest] using h.arrived hl
  listening := h.listening
  index := h.index

theorem channelClosed_isOpen (s : State) : (channelClosed s).state.isOpen = false := by
  by_cases hs : s.state = .closed
  · rw [channelClosed_of_closed hs, hs]
    rfl
  · rw [channelClosed_of_not hs]
    rfl

variable {queued : List Bytes}

theorem Inv.failed_greeting (h : Inv env False rest s) (hs : s.state = .greeting queued)
    : Inv env True rest (Channel.failed s) := by
  have hfailed : Inv env False rest (Channel.failed s) := h.failed
  have hnot : s.state ≠ .closed := by simp [hs]
  have hclosed : (Channel.failed s).link.closed = true := by
    rw [failed_of_not hnot]
    exact closeLink_closed _
  have hopen : (Channel.failed s).state.isOpen = false := by
    rw [failed_of_not hnot, closeLink_eq]
    have hgreeting : s.state.isOpen = false := by rw [hs]; rfl
    split
    · exact hgreeting
    · split
      · exact channelClosed_isOpen _
      · exact hgreeting
  exact { hfailed with
    fresh := fun q hq hl => by rw [hclosed] at hl; cases hl
    opened := fun ho => by rw [hopen] at ho; cases ho }

theorem Inv.greeted {peer : String} {calls : Nat} (h : Inv env False rest s)
    (hs : s.state = .greeting queued) (hhandled : handledBytes s.log ≠ []) :
    Inv env False rest { s with state := .opened peer calls } :=
  { h with
    greeting := nofun
    fresh := nofun
    opened := nofun
    first := fun _ => hhandled
    notClosed := fun _ => h.notClosed (by simp [hs])
    closed := nofun
    held := fun hh _ => h.held hh (by simp [hs])
    index := fun held hh => ⟨(h.index held hh).1, nofun⟩ }

/-- What was queued goes out before `opened`. -/
theorem Inv.opening (h : Inv env False rest s) (hgreet : ∀ q, s.state ≠ .greeting q)
    (hfirst : handledBytes s.log = [bytes]) (hhello : IsHello env bytes) (hopened : .opened ∉ s.log)
    (hqueued : queuedBytes s.log = queued) (hsends : sends s.log = [env.hello]) :
    Inv env True rest (Channel.call env (queued.foldl (Channel.linkSend env) s) .opened).1 := by
  have hsent := h.sendAll hgreet queued
  have hkept := sendAll_kept env queued s
  have hallowed : Allowed env (queued.foldl (Channel.linkSend env) s).log .opened := by
    refine ⟨fun ho => hopened (hkept.opened.1 ho), ⟨bytes, hkept.handled.trans hfirst, hhello⟩, ?_⟩
    intro hended
    have hlog := sendAll_log env queued s (by
      have hiff := hsent.ended
      by_contra hclosed
      exact hended (hiff.1 (by simpa using hclosed)))
    have hsame : queuedBytes (s.log ++ queued.map .sent) = queuedBytes s.log := by
      simp [List.filterMap_map]
    refine ⟨s.log, ?_, hsends⟩
    rw [hlog, hsame, hqueued]
  exact (hsent.noteOpened (hkept.greeted hgreet) hallowed).call

/-- **The first message** opens the channel, or closes the link. -/
theorem Ready.greet {queued : List Bytes} (h : Ready env bytes rest s)
    (hs : s.state = .greeting queued) :
    Inv env True rest (greet env (s.note (.handled bytes)) bytes queued) := by
  have hhandled : Inv env False rest (s.note (.handled bytes)) :=
    h.handled (fun _ _ => not_false) fun ho => by rw [hs] at ho; cases ho
  have hstate : (s.note (.handled bytes)).state = .greeting queued := hs
  have hfailed := hhandled.failed_greeting hstate
  obtain ⟨hopened, hqueued⟩ := h.greeting queued hs
  obtain ⟨hnone, hsends⟩ := h.fresh queued hs h.openLink trivial
  rw [h.started, if_pos rfl] at hsends
  unfold Channel.greet
  split
  · exact hfailed
  · next m hdecode =>
    split
    · next protocol peer calls hbody =>
      split
      · next hprotocol =>
        subst hprotocol
        dsimp only
        have hfirst : handledBytes (s.note (.handled bytes)).log = [bytes] := by
          simp only [State.note, handledBytes, List.filterMap_append] at hnone ⊢
          simp [hnone]
        have hgreeted : Inv env False rest
            { s.note (.handled bytes) with state := .opened peer calls } :=
          hhandled.greeted hstate (by simp)
        have hcall := hgreeted.opening (by rintro _ ⟨⟩) hfirst
          ⟨m, peer, calls, hdecode, hbody⟩ (by simpa using hopened)
          (by simpa using hqueued)
          (by simpa using hsends)
        split
        · next hresult =>
          rw [hresult] at hcall
          exact hcall.failed
        · next hresult =>
          rw [hresult] at hcall
          exact hcall
      · exact hfailed
    · exact hfailed

theorem Ready.handle (h : Ready env bytes rest s) : Inv env True rest (handle env s bytes) := by
  unfold Channel.handle
  dsimp only
  split
  · next queued hs => exact h.greet hs
  · next hgreet =>
    have ho := isOpen_of h.live fun q hq => hgreet q hq
    split
    · next hdecode =>
      have hnone : ordinary env bytes = none := by simp [ordinary, hdecode]
      exact (h.handled (g := True) (fun q hq => absurd hq (hgreet q)) fun _ => hnone).failed
    · next m hdecode => exact h.dispatch ho hdecode

/-! ## What handling leaves as it is -/

theorem call_frame (env : Env) (s : State) (e : Entry) : Frame s (call env s e).1 :=
  (note_frame s e).trans (call_kept env s e).toFrame

theorem failed_frame (s : State) : Frame s (failed s) := by
  by_cases hs : s.state = .closed
  · rw [failed_of_closed hs]
    exact note_frame s _
  · rw [failed_of_not hs]
    exact ((note_frame s _).trans (note_frame _ _)).trans (closeLink_kept _).toFrame

theorem hold_frame (s : State) : Frame s (hold s) where
  started := rfl
  link := .inl rfl
  registered := id
  held := fun held hs => .inl (by
    show some (s.held.getD _) = some held
    rw [hs]
    rfl)
  closed := id

theorem dispatch_frame (env : Env) (s : State) (m : Message) : Frame s (dispatch env s m) := by
  unfold Channel.dispatch
  split
  · exact failed_frame s
  · split
    · exact failed_frame s
    · exact (linkSend_kept env s _).toFrame
  · exact Frame.refl s
  · have hcall := call_frame env s (.message m)
    split
    · next hresult =>
      rw [hresult] at hcall
      exact hcall
    · next hresult =>
      rw [hresult] at hcall
      exact hcall.trans (failed_frame _)
    · next hresult =>
      rw [hresult] at hcall
      exact hcall.trans (hold_frame _)

theorem greet_frame (env : Env) (s : State) (bytes : Bytes) (hs : s.state = .greeting queued)
    : Frame s (greet env s bytes queued) := by
  unfold Channel.greet
  split
  · exact failed_frame s
  · split
    · next protocol peer calls _ =>
      split
      · dsimp only
        have hopened : Frame s { s with state := .opened peer calls } := {
          started := rfl
          link := .inl rfl
          registered := fun hr => hr.elim .inl fun hc => by rw [hs] at hc; cases hc
          held := fun _ => .inl
          closed := fun hc => by rw [hs] at hc; cases hc }
        have hcall := (hopened.trans (sendAll_kept env queued _).toFrame).trans
          (call_frame env _ .opened)
        split
        · next hresult =>
          rw [hresult] at hcall
          exact hcall.trans (failed_frame _)
        · next hresult =>
          rw [hresult] at hcall
          exact hcall
      · exact failed_frame s
    · exact failed_frame s

theorem handle_frame (env : Env) (s : State) (bytes : Bytes) : Frame s (handle env s bytes) := by
  refine (note_frame s (.handled bytes)).trans ?_
  unfold handle
  dsimp only
  split
  · next queued hs => exact greet_frame env _ bytes hs
  · split
    · exact failed_frame _
    · exact dispatch_frame env _ _

/-! ## Receiving -/

/-- A link end that is closed, or hands every message to the channel. -/
def Delivered (s : State) : Prop :=
  s.link.closed = true ∨ (s.link.queued = [] ∧ s.link.listener = true)

theorem Steady.delivered {s' : State} (h : Steady s s') (hs : Delivered s) : Delivered s' := by
  rcases h.link with heq | hclosed
  · unfold Delivered
    rw [heq]
    exact hs
  · exact .inl hclosed

/-- **A message is received**: handled, or held behind one that is being handled. -/
theorem Inv.receive (h : Inv env True (bytes :: rest) s) (hopen : s.link.closed = false)
    (hstarted : s.started = true) (now : Nat) :
    Inv env True rest (Channel.receive env now s bytes) ∧
      Steady s (Channel.receive env now s bytes) := by
  have hlive : s.state ≠ .closed := fun hc => by
    rw [(h.closed hc).1] at hopen
    cases hopen
  have hstamp := h.stamp now false
  have hframe : Frame s { s with lastReceived := now, pinged := false } :=
    ⟨⟨rfl, .inl rfl, id⟩, fun _ => .inl, id⟩
  cases hheld : s.held with
  | none =>
    have heq : Channel.receive env now s bytes =
        Channel.handle env { s with lastReceived := now, pinged := false } bytes := by
      unfold Channel.receive
      split
      · next hc => exact absurd hc hlive
      · simp only [hheld]
    have hready : Ready env bytes rest { s with lastReceived := now, pinged := false } := {
      toCore := hstamp.toCore
      openLink := hopen
      live := hlive
      idle := h.held hheld hlive
      started := hstarted
      next := by
        have harrived := h.arrived hopen
        simp only [State.heldRest, hheld] at harrived ⊢
        simpa using harrived }
    rw [heq]
    exact ⟨hready.handle, (hframe.trans (handle_frame env _ bytes)).toSteady⟩
  | some held =>
    have heq : Channel.receive env now s bytes = { s with
        lastReceived := now, pinged := false
        held := some { held with queue := held.queue ++ [bytes] } } := by
      unfold Channel.receive
      split
      · next hc => exact absurd hc hlive
      · simp only [hheld]
    rw [heq]
    obtain ⟨hindex, hgreet⟩ := h.index held hheld
    constructor
    · exact { hstamp with
        held := by rintro ⟨⟩
        index := fun held' hh => by
          cases hh
          refine ⟨?_, hgreet⟩
          rw [List.length_append]
          exact Nat.le_add_right_of_le hindex
        arrived := fun _ => by
          have harrived := h.arrived hopen
          simp only [State.heldRest, hheld] at harrived ⊢
          rw [List.drop_append_of_le_length hindex]
          simpa using harrived }
    · exact ⟨rfl, .inl rfl, id⟩

end ThreeXhaust.Chord.Channel
