import ThreeXhaust.Chord.Channel

/-!
# The invariant of a channel

What holds of the log of every run. `Allowed` is the rule for one entry and its past: a message is
handled after `opened`, before the link closes, after no protocol error and while no earlier
message waits; what was sent before the handshake is put on the link right before `opened`.
`Inv` is the invariant: it ties the channel's fields to the log, and accounts for every message
that arrived as handled, held or waiting in the link end. Here it is kept by everything an owner
may do to its channel.
-/

namespace ThreeXhaust.Chord.Channel

/-! ## What a log says -/

def messages (log : List Entry) : List Message := log.filterMap fun
  | .message m => some m
  | _ => none

def arrivals (log : List Entry) : List Bytes := log.filterMap fun
  | .arrived bytes => some bytes
  | _ => none

def handledBytes (log : List Entry) : List Bytes := log.filterMap fun
  | .handled bytes => some bytes
  | _ => none

def sends (log : List Entry) : List Bytes := log.filterMap fun
  | .sent bytes => some bytes
  | _ => none

def queuedBytes (log : List Entry) : List Bytes := log.filterMap fun
  | .queued bytes => some bytes
  | _ => none

def holds (log : List Entry) : Nat := log.countP fun
  | .held => true
  | _ => false

def settles (log : List Entry) : Nat := log.countP fun
  | .settled => true
  | _ => false

/-- The message a received one is handled as: `hello`, `ping` and `pong` are the channel's, and
what cannot be decoded is none. -/
def ordinary (env : Env) (bytes : Bytes) : Option Message :=
  match decode env bytes with
  | none => none
  | some m =>
    match m.body with
    | .hello .. | .ping | .pong => none
    | _ => some m

def IsHello (env : Env) (bytes : Bytes) : Prop :=
  ∃ m peer calls, decode env bytes = some m ∧ m.body = .hello protocolVersion peer calls

/-- What must have happened before an entry. -/
def Allowed (env : Env) (before : List Entry) : Entry → Prop
  | .message _ => .opened ∈ before ∧ .ended ∉ before ∧ .closed ∉ before ∧ .fault ∉ before ∧
      holds before = settles before
  | .opened => .opened ∉ before ∧
      (∃ bytes, handledBytes before = [bytes] ∧ IsHello env bytes) ∧
      (.ended ∉ before → ∃ front, before = front ++ (queuedBytes before).map .sent ∧
        sends front = [env.hello])
  | .closed => .closed ∉ before ∧ .ended ∈ before
  | .ended => .ended ∉ before
  | .sent _ => .ended ∉ before
  | _ => True

/-! ## The invariant -/

def State.heldRest (s : State) : List Bytes :=
  match s.held with
  | none => []
  | some held => held.queue.drop held.next

/-- What the fields and the log of a channel say of each other. `greeted` says that no handshake is
underway: an open channel has called `opened`, a greeting one has handled nothing. -/
structure Core (env : Env) (greeted : Prop) (s : State) : Prop where
  lawful : Lawful (Allowed env) s.log
  messages : messages s.log = (handledBytes s.log).tail.filterMap (ordinary env)
  greeting : ∀ q, s.state = .greeting q → .opened ∉ s.log ∧ queuedBytes s.log = q
  fresh : ∀ q, s.state = .greeting q → s.link.closed = false → greeted →
    handledBytes s.log = [] ∧ sends s.log = if s.started then [env.hello] else []
  opened : s.state.isOpen = true → greeted → .opened ∈ s.log
  first : s.state.isOpen = true → handledBytes s.log ≠ []
  notClosed : s.state ≠ .closed → .closed ∉ s.log
  closed : s.state = .closed → s.link.closed = true ∧ .closed ∈ s.log
  ended : s.link.closed = true ↔ .ended ∈ s.log
  fault : .fault ∈ s.log → s.link.closed = true
  promises : holds s.log = settles s.log + s.promises
  onePromise : s.promises ≤ 1 ∧ (s.promises = 1 → s.waiting = true)
  held : s.held = none → s.state ≠ .closed → s.waiting = false
  taken : handledBytes s.log <+: arrivals s.log
  listening : s.link.closeListener = true → s.link.closed = false
  index : ∀ held, s.held = some held → held.next ≤ held.queue.length ∧
    ∀ q, s.state ≠ .greeting q

/-- Every message that arrived is handled, held, or in `rest`, which the link end still has to
deliver. -/
structure Inv (env : Env) (greeted : Prop) (rest : List Bytes) (s : State) : Prop
    extends Core env greeted s where
  arrived : s.link.closed = false → arrivals s.log = handledBytes s.log ++ s.heldRest ++ rest

def State.Registered (s : State) : Prop :=
  s.link.closeListener = true ∨ s.state = .closed

/-- What everything that happens to a started channel leaves as it is. -/
structure Steady (s s' : State) : Prop where
  started : s'.started = s.started
  link : s'.link = s.link ∨ s'.link.closed = true
  registered : s.Registered → s'.Registered

theorem Steady.refl (s : State) : Steady s s := ⟨rfl, .inl rfl, id⟩

theorem Steady.trans {s s' s'' : State} (h : Steady s s') (h' : Steady s' s'') :
    Steady s s'' where
  started := h'.started.trans h.started
  link := by
    rcases h'.link with heq | hclosed
    · rw [heq]
      exact h.link
    · exact .inr hclosed
  registered := fun hs => h'.registered (h.registered hs)

/-- What everything that happens inside one call of the channel leaves as it is. -/
structure Frame (s s' : State) : Prop extends Steady s s' where
  held : ∀ held, s.held = some held → s'.held = some held ∨ s'.state = .closed
  closed : s.state = .closed → s'.state = .closed

theorem Frame.refl (s : State) : Frame s s := ⟨Steady.refl s, fun _ => .inl, id⟩

theorem Frame.trans {s s' s'' : State} (h : Frame s s') (h' : Frame s' s'') : Frame s s'' where
  toSteady := h.toSteady.trans h'.toSteady
  held := fun held hs => by
    rcases h.held held hs with heq | hclosed
    · exact h'.held held heq
    · exact .inr (h'.closed hclosed)
  closed := fun hs => h'.closed (h.closed hs)

theorem note_frame (s : State) (e : Entry) : Frame s (s.note e) :=
  ⟨⟨rfl, .inl rfl, id⟩, fun _ => .inl, id⟩

structure Kept (s s' : State) : Prop extends Frame s s' where
  waiting : s'.waiting = s.waiting
  promises : s'.promises = s.promises
  handled : handledBytes s'.log = handledBytes s.log
  opened : .opened ∈ s'.log ↔ .opened ∈ s.log
  greeted : (∀ q, s.state ≠ .greeting q) → ∀ q, s'.state ≠ .greeting q

theorem Kept.refl (s : State) : Kept s s :=
  ⟨Frame.refl s, rfl, rfl, rfl, Iff.rfl, id⟩

theorem Kept.trans {s s' s'' : State} (h : Kept s s') (h' : Kept s' s'') : Kept s s'' where
  toFrame := h.toFrame.trans h'.toFrame
  waiting := h'.waiting.trans h.waiting
  promises := h'.promises.trans h.promises
  handled := h'.handled.trans h.handled
  opened := h'.opened.trans h.opened
  greeted := fun hs => h'.greeted (h.greeted hs)

/-! ## Closing -/

variable {env : Env} {g : Prop} {rest rest' : List Bytes} {s : State}

def endLink (s : State) : State :=
  { s with
    link := { closed := true, listener := false, queued := [], closeListener := false } }.note
    .ended

attribute [local simp] State.note messages handledBytes queuedBytes sends arrivals holds settles
  endLink

theorem closeLink_eq (s : State) : closeLink s =
    if s.link.closed then s
    else if s.link.closeListener then channelClosed (endLink s) else endLink s := rfl

theorem Inv.endLink (h : Inv env g rest s) (hopen : s.link.closed = false) :
    Inv env g rest' (endLink s) where
  lawful := h.lawful.snoc (fun hended => by
    rw [h.ended.2 hended] at hopen
    cases hopen)
  messages := by simpa using h.messages
  greeting := fun q hq => by simpa using h.greeting q hq
  fresh := fun q hq hclosed => by cases hclosed
  opened := fun hs hg => by simpa using h.opened hs hg
  first := fun hs => by simpa using h.first hs
  notClosed := fun hs => by simpa using h.notClosed hs
  closed := fun hs => absurd (h.closed hs).1 (by simp [hopen])
  ended := by simp
  fault := fun _ => rfl
  promises := by simpa using h.promises
  onePromise := h.onePromise
  held := h.held
  taken := by simpa using h.taken
  arrived := fun hclosed => by cases hclosed
  listening := fun hl => by cases hl
  index := h.index

theorem Inv.anyRest (h : Inv env g rest s) (hclosed : s.link.closed = true) :
    Inv env g rest' s :=
  { h with arrived := fun hopen => by rw [hclosed] at hopen; cases hopen }

theorem channelClosed_of_closed (h : s.state = .closed) : channelClosed s = s := by
  rw [channelClosed, h]

theorem channelClosed_of_not (h : s.state ≠ .closed) :
    channelClosed s = { s with state := .closed, held := none }.note .closed := by
  unfold channelClosed
  split
  · next hs => exact absurd hs h
  · rfl

theorem Inv.channelClosed (h : Inv env g rest s) (hclosed : s.link.closed = true) :
    Inv env g rest' (channelClosed s) := by
  by_cases hs : s.state = .closed
  · rw [channelClosed_of_closed hs]
    exact h.anyRest hclosed
  · rw [channelClosed_of_not hs]
    exact {
      lawful := h.lawful.snoc ⟨h.notClosed hs, h.ended.1 hclosed⟩
      messages := by simpa using h.messages
      greeting := nofun
      fresh := nofun
      opened := nofun
      first := nofun
      notClosed := fun hne => absurd rfl hne
      closed := fun _ => ⟨hclosed, by simp⟩
      ended := by simpa using h.ended
      fault := fun _ => hclosed
      promises := by simpa using h.promises
      onePromise := h.onePromise
      held := fun _ hne => absurd rfl hne
      taken := by simpa using h.taken
      arrived := fun hopen => absurd hopen (by simp [hclosed])
      listening := h.listening
      index := nofun }

theorem closeLink_of_closed (h : s.link.closed = true) : closeLink s = s := by
  rw [closeLink_eq, if_pos h]

theorem Inv.closeLink (h : Inv env g rest s) : Inv env g rest' (closeLink s) := by
  by_cases hclosed : s.link.closed = true
  · rw [closeLink_of_closed hclosed]
    exact h.anyRest hclosed
  · rw [closeLink_eq, if_neg hclosed]
    have hend : Inv env g rest' (Channel.endLink s) := h.endLink (by simpa using hclosed)
    split
    · exact hend.channelClosed rfl
    · exact hend

theorem closeLink_closed (s : State) : (closeLink s).link.closed = true := by
  rw [closeLink_eq]
  split
  · next h => exact h
  · split
    · by_cases hs : (endLink s).state = .closed
      · rw [channelClosed_of_closed hs]
        rfl
      · rw [channelClosed_of_not hs]
        rfl
    · rfl

theorem channelClosed_state (s : State) : (channelClosed s).state = .closed := by
  by_cases hs : s.state = .closed
  · rw [channelClosed_of_closed hs, hs]
  · rw [channelClosed_of_not hs]
    rfl

theorem note_kept (s : State) {e : Entry} (hhandled : handledBytes [e] = []) (hopened : e ≠ .opened) :
    Kept s (s.note e) where
  toFrame := note_frame s e
  waiting := rfl
  promises := rfl
  handled := by
    simp only [State.note, handledBytes, List.filterMap_append] at *
    simp [hhandled]
  opened := by
    simp only [State.note, List.mem_append, List.mem_singleton]
    exact ⟨fun h => h.resolve_right fun heq => hopened heq.symm, .inl⟩
  greeted := id

theorem channelClosed_kept (s : State) : Kept s (channelClosed s) := by
  by_cases hs : s.state = .closed
  · rw [channelClosed_of_closed hs]
    exact Kept.refl s
  · rw [channelClosed_of_not hs]
    have hkept : Kept s { s with state := .closed, held := none } := {
      started := rfl
      link := .inl rfl
      registered := fun _ => .inr rfl
      held := fun _ _ => .inr rfl
      closed := fun _ => rfl
      waiting := rfl
      promises := rfl
      handled := rfl
      opened := Iff.rfl
      greeted := nofun }
    exact hkept.trans (note_kept _ rfl (by simp))

theorem closeLink_kept (s : State) : Kept s (closeLink s) := by
  rw [closeLink_eq]
  split
  · exact Kept.refl s
  · have hnote := note_kept s (e := .ended) rfl (by simp)
    split
    · -- the channel hears of it, so that it is registered afterwards whatever it was
      have hkept := channelClosed_kept (endLink s)
      exact {
        started := hkept.started
        link := .inr (hkept.link.elim (fun h => by rw [h]; rfl) id)
        registered := fun _ => .inr (channelClosed_state _)
        held := fun _ _ => .inr (channelClosed_state _)
        closed := fun _ => channelClosed_state _
        waiting := hkept.waiting
        promises := hkept.promises
        handled := hkept.handled.trans hnote.handled
        opened := hkept.opened.trans hnote.opened
        greeted := hkept.greeted }
    · next hl => exact {
        started := rfl
        link := .inr rfl
        registered := fun hr => hr.elim (fun h => absurd h hl) .inr
        held := fun _ => .inl
        closed := id
        waiting := rfl
        promises := rfl
        handled := hnote.handled
        opened := hnote.opened
        greeted := id }

/-! ## Sending -/

theorem linkSend_eq (env : Env) (s : State) (bytes : Bytes) : linkSend env s bytes =
    if s.link.closed then s
    else if env.breaks (s.log ++ [.sent bytes]) then closeLink (s.note (.sent bytes))
    else s.note (.sent bytes) := rfl

theorem Inv.linkSend (h : Inv env g rest s) (hs : ∀ q, s.state ≠ .greeting q) (bytes : Bytes) :
    Inv env g rest (linkSend env s bytes) := by
  rw [linkSend_eq]
  split
  · exact h
  · next hopen =>
    have hsent : Inv env g rest (s.note (.sent bytes)) :=
      { h with
        lawful := h.lawful.snoc fun hended => hopen (h.ended.2 hended)
        messages := by simpa using h.messages
        greeting := fun q hq => absurd hq (hs q)
        fresh := fun q hq => absurd hq (hs q)
        opened := fun ho hg => by simpa using h.opened ho hg
        first := fun ho => by simpa using h.first ho
        notClosed := fun hne => by simpa using h.notClosed hne
        closed := fun hc => by simpa using h.closed hc
        ended := by simpa using h.ended
        fault := fun hf => h.fault (by simpa using hf)
        promises := by simpa using h.promises
        taken := by simpa using h.taken
        arrived := fun hl => by
          simpa [State.heldRest] using h.arrived hl }
    split
    · exact hsent.closeLink
    · exact hsent

theorem linkSend_kept (env : Env) (s : State) (bytes : Bytes) :
    Kept s (linkSend env s bytes) := by
  have hsent : Kept s (s.note (.sent bytes)) := note_kept s rfl (by simp)
  rw [linkSend_eq]
  split
  · exact Kept.refl s
  · split
    · exact hsent.trans (closeLink_kept _)
    · exact hsent

theorem not_greeting_of_open (h : s.state.isOpen = true) : ∀ q, s.state ≠ .greeting q := by
  intro q hq
  rw [hq] at h
  cases h

theorem Inv.send (h : Inv env g rest s) (m : Message) : Inv env g rest (send env s m) := by
  unfold Channel.send
  split
  · exact h
  · next queued hs =>
    split
    · exact h
    · next bytes _ =>
      -- the message waits: nothing of the log but what is queued changes
      exact { h with
        lawful := h.lawful.snoc trivial
        messages := by simpa using h.messages
        greeting := fun q hq => by
          have hgreet := h.greeting queued hs
          cases hq
          simpa using hgreet
        fresh := fun q hq hl hg => by
          obtain ⟨hhandled, hsends⟩ := h.fresh queued hs hl hg
          refine ⟨by simpa using hhandled, ?_⟩
          show sends (s.log ++ [.queued bytes]) = if s.started then _ else _
          rw [← hsends]
          simp
        opened := nofun
        first := nofun
        notClosed := fun _ => by simpa using h.notClosed (by simp [hs])
        closed := nofun
        ended := by simpa using h.ended
        fault := fun hf => h.fault (by simpa using hf)
        promises := by simpa using h.promises
        held := fun hh _ => h.held hh (by simp [hs])
        index := fun held hh => absurd hs ((h.index held hh).2 queued)
        taken := by simpa using h.taken
        arrived := fun hl => by
          simpa [State.heldRest] using h.arrived hl }
  · next hs =>
    split
    · exact h
    · exact h.linkSend (fun q hq => by rw [hs] at hq; cases hq) _

theorem send_kept (env : Env) (s : State) (m : Message) : Kept s (send env s m) := by
  unfold Channel.send
  split
  · exact Kept.refl s
  · next queued hs =>
    split
    · exact Kept.refl s
    · next bytes _ =>
      have hqueue : Kept s { s with state := .greeting (queued ++ [bytes]) } := {
        started := rfl
        link := .inl rfl
        registered := fun hr => hr.elim .inl fun hc => by rw [hs] at hc; cases hc
        held := fun _ => .inl
        closed := fun hc => by rw [hs] at hc; cases hc
        waiting := rfl
        promises := rfl
        handled := rfl
        opened := Iff.rfl
        greeted := fun hne => absurd hs (hne queued) }
      exact hqueue.trans (note_kept _ rfl (by simp))
  · split
    · exact Kept.refl s
    · exact linkSend_kept env s _

theorem Inv.stamp (h : Inv env g rest s) (now : Nat) (pinged : Bool) :
    Inv env g rest { s with lastReceived := now, pinged } := { h with }

theorem Inv.tick (h : Inv env g rest s) (now ping close : Nat) :
    Inv env g rest (tick env s now ping close) := by
  unfold Channel.tick
  dsimp only
  split
  · exact h.closeLink
  · split
    · next hping =>
      have hopen : s.state.isOpen = true := by
        simp only [Bool.and_eq_true] at hping
        exact hping.2
      have hpinged := h.stamp s.lastReceived true
      split
      · exact hpinged
      · exact hpinged.linkSend (not_greeting_of_open hopen) _
    · exact h

theorem tick_kept (env : Env) (s : State) (now ping close : Nat) :
    Kept s (tick env s now ping close) := by
  have hpinged : Kept s { s with pinged := true } :=
    ⟨⟨⟨rfl, .inl rfl, id⟩, fun _ => .inl, id⟩, rfl, rfl, rfl, Iff.rfl, id⟩
  unfold Channel.tick
  dsimp only
  split
  · exact closeLink_kept s
  · split
    · split
      · exact hpinged
      · exact hpinged.trans (linkSend_kept env _ _)
    · exact Kept.refl s

theorem Inv.act (h : Inv env g rest s) (a : Act) : Inv env g rest (act env s a) := by
  cases a with
  | send m => exact h.send m
  | close => exact h.closeLink
  | tick now ping close => exact h.tick now ping close

theorem act_kept (env : Env) (s : State) (a : Act) : Kept s (act env s a) := by
  cases a with
  | send m => exact send_kept env s m
  | close => exact closeLink_kept s
  | tick now ping close => exact tick_kept env s now ping close

theorem Inv.acts (h : Inv env g rest s) (acts : List Act) :
    Inv env g rest (acts.foldl (Channel.act env) s) := by
  induction acts generalizing s with
  | nil => exact h
  | cons a acts ih => exact ih (h.act a)

theorem acts_kept (env : Env) (s : State) (acts : List Act) :
    Kept s (acts.foldl (act env) s) := by
  induction acts generalizing s with
  | nil => exact Kept.refl s
  | cons a acts ih => exact (act_kept env s a).trans (ih _)

theorem Inv.call {e : Entry} (h : Inv env g rest (s.note e)) :
    Inv env g rest (call env s e).1 := h.acts _

theorem call_kept (env : Env) (s : State) (e : Entry) : Kept (s.note e) (call env s e).1 :=
  acts_kept env _ _

end ThreeXhaust.Chord.Channel
