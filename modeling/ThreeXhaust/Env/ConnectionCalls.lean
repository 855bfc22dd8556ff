import ThreeXhaust.Env.ConnectionTeardown

/-!
# The calls of the owner of a connection

A request is bound to the live session or waits for a start; behind its start it gets an id and its
place, then its `onStart` runs, and only then its frame is written. `close`, `kill` and an aborted
signal may come in the middle of that.
-/

namespace ThreeXhaust.Env.Connection

variable {loose loose' : List Nat} {s : State} {e : Entry} {r : Nat}

/-! ## Requests begin -/

theorem Inv.unsettled (h : Inv loose s) (hr : r < s.requests)
    (hstatus : (s.request r).status ≠ .settled) : Unsettled s.log r := by
  by_contra hset
  exact hstatus ((h.requests.settled r hr).mpr hset)

theorem Inv.not_pending (h : Inv loose s) (hun : Unregistered s.log r) (i id : Nat) :
    (id, Owner.request r) ∉ (s.table i).pending := fun hmem =>
  hun i id (h.tables.pending i id r hmem).1

variable {table table' : Nat → Session} {i : Nat}

/-- A request gets an id and its place. -/
theorem Tables.register {log : List Entry} {request request' : Nat → Request} {nextId : Nat}
    (h : Tables log table request nextId) (hun : Unregistered log r)
    (htable : ∀ j, (table' j).pending =
      if j = i then (table i).pending ++ [(nextId, .request r)] else (table j).pending)
    (hstatus : ∀ r', r' ≠ r → (request' r').status = (request r').status)
    (hnow : (request' r).status = .registered i nextId) :
    Tables (log ++ [.registered r i nextId]) table' request' (nextId + 1) where
  ids j entry hmem := by
    rw [htable] at hmem
    split at hmem
    · rcases List.mem_append.mp hmem with hmem | hmem
      · exact Nat.lt_succ_of_lt (h.ids i entry hmem)
      · rw [List.mem_singleton.mp hmem]
        exact Nat.lt_succ_self nextId
    · exact Nat.lt_succ_of_lt (h.ids j entry hmem)
  registered r' j id hmem := by
    rcases List.mem_append.mp hmem with hmem | hmem
    · exact Nat.lt_succ_of_lt (h.registered r' j id hmem)
    · cases List.mem_singleton.mp hmem
      exact Nat.lt_succ_self nextId
  pending j id r' hmem := by
    have hold (hmem : (id, Owner.request r') ∈ (table j).pending) :
        .registered r' j id ∈ log ++ [.registered r i nextId] ∧
          ((request' r').status = .registered j id ∨
            .settled r' .threw ∈ log ++ [.registered r i nextId]) := by
      obtain ⟨hlog, hwhere⟩ := h.pending j id r' hmem
      have hne : r' ≠ r := by
        rintro rfl
        exact hun j id hlog
      rw [hstatus r' hne]
      exact ⟨List.mem_append_left _ hlog, hwhere.imp_right (List.mem_append_left _)⟩
    rw [htable] at hmem
    split at hmem
    · next hj =>
      subst hj
      rcases List.mem_append.mp hmem with hmem | hmem
      · exact hold hmem
      · cases List.mem_singleton.mp hmem
        exact ⟨List.mem_append_right _ (List.mem_singleton_self _), .inl hnow⟩
    · exact hold hmem
  keys j := by
    rw [htable]
    split
    · rw [List.map_append, List.map_singleton]
      refine (h.keys i).append (List.nodup_singleton _) ?_
      intro id hid hid'
      obtain ⟨entry, hentry, rfl⟩ := List.mem_map.mp hid
      have hlt := h.ids i entry hentry
      rw [List.mem_singleton.mp hid'] at hlt
      exact Nat.lt_irrefl _ hlt
    · exact h.keys j

/-- It is awaited no longer, and nothing else is said of the others. -/
theorem Requests.register {log : List Entry} {request request' : Nat → Request}
    {requests starts nextId : Nat} {sending : List Nat}
    (h : Requests (r :: loose) log table request requests starts sending) (hr : r < requests)
    (hun : Unregistered log r) (hunsettled : Unsettled log r)
    (hask : ∀ r, (request' r).ask = (request r).ask)
    (hstatus : ∀ r', r' ≠ r → (request' r').status = (request r').status)
    (hnow : (request' r).status = .registered i nextId)
    (hlive : ∀ j, (table' j).live = (table j).live) (hilive : (table i).live = true)
    (hpending : ∀ j, (table j).pending ⊆ (table' j).pending)
    (hin : (nextId, Owner.request r) ∈ (table' i).pending)
    (hunwritten : ∀ j id bytes, .wrote j (.request r id) bytes ∉ log) :
    Requests loose (log ++ [.registered r i nextId]) table' request' requests starts (r :: sending) := by
  have hother (x : Entry) (hx : ∀ r' j id, x ≠ .registered r' j id) :
      x ∈ log ++ [.registered r i nextId] ↔ x ∈ log := mem_note (hx _ _ _)
  have hset (r' : Nat) : Unsettled (log ++ [.registered r i nextId]) r' ↔ Unsettled log r' := by
    simp only [Unsettled, hother (.settled r' _) (by simp)]
  have hunOther (r' : Nat) (hne : r' ≠ r) :
      Unregistered (log ++ [.registered r i nextId]) r' ↔ Unregistered log r' := by
    have hx (j id : Nat) : Entry.registered r' j id ≠ .registered r i nextId := by
      rintro ⟨⟩
      exact hne rfl
    simp only [Unregistered, mem_note (hx _ _)]
  have hloose (r' : Nat) (hne : r' ≠ r) (hl : r' ∈ r :: loose) : r' ∈ loose :=
    (List.mem_cons.mp hl).resolve_left hne
  constructor
  case requested => simpa only [hother (.requested _ _) (by simp)] using h.requested
  case beyond =>
    intro r' hr'
    rw [hstatus r' (by omega)]
    exact h.beyond r' hr'
  case bound => simpa only [hask, hother (.requested _ _) (by simp)] using h.bound
  case known =>
    intro r' hk
    by_cases hne : r' = r
    · rwa [hne]
    · exact h.known r' (by rwa [hunOther r' hne, hset] at hk)
  case settled =>
    intro r' hr'
    rw [hset]
    by_cases hne : r' = r
    · subst hne
      exact iff_of_false (by rw [hnow]; rintro ⟨⟩) (not_not_intro hunsettled)
    · rw [hstatus r' hne]
      exact h.settled r' hr'
  case awaiting =>
    intro r' hr' k hk
    have hne : r' ≠ r := by
      rintro rfl
      rw [hnow] at hk
      cases hk
    rw [hstatus r' hne] at hk
    rw [hunOther r' hne, hask]
    exact (h.awaiting r' hr' k hk).imp_right (Or.imp_left (hloose r' hne))
  case place =>
    intro r' hr' j id hs
    by_cases hne : r' = r
    · subst hne
      rw [hnow] at hs
      cases hs
      refine ⟨List.mem_append_right _ (List.mem_singleton_self _), .inr ⟨?_, hin, ?_⟩⟩
      · rw [hlive]
        exact hilive
      · exact .inl List.mem_cons_self
    · rw [hstatus r' hne] at hs
      obtain ⟨hlog, hplace⟩ := h.place r' hr' j id hs
      refine ⟨List.mem_append_left _ hlog, hplace.imp (hloose r' hne) ?_⟩
      rintro ⟨hjlive, hjpending, hwait⟩
      refine ⟨by rw [hlive]; exact hjlive, hpending j hjpending, hwait.imp ?_ ?_⟩
      · exact List.mem_cons_of_mem r
      · exact fun hwait => hwait.note (by rintro m ⟨⟩)
  case nodup =>
    refine List.nodup_cons.mpr ⟨fun hmem => ?_, h.nodup⟩
    exact (h.sending r hmem).1 hun
  case sending =>
    intro r' hr'
    rcases List.mem_cons.mp hr' with rfl | hr'
    · refine ⟨fun hnot => hnot i nextId (List.mem_append_right _ (List.mem_singleton_self _)), ?_⟩
      intro j id bytes
      rw [hother _ (by simp)]
      exact hunwritten j id bytes
    · obtain ⟨hregistered, hunwritten'⟩ := h.sending r' hr'
      refine ⟨fun hnot => hregistered fun j id hmem => hnot j id (List.mem_append_left _ hmem), ?_⟩
      intro j id bytes
      rw [hother _ (by simp)]
      exact hunwritten' j id bytes

theorem Sessions.tables {log : List Entry} {session : Option Nat} {sessions : Nat} {closed : Bool}
    (h : Sessions log table session sessions closed) (hlive : ∀ j, (table' j).live = (table j).live)
    (hdead : ∀ j, (table j).live = false → (table' j).pending = []) :
    Sessions log table' session sessions closed where
  live j := by rw [hlive, h.live]
  current j := by rw [hlive, h.current]
  dead j hj := hdead j (by rwa [hlive] at hj)
  spawned := h.spawned
  closed := h.closed

theorem setSession_live {session : Session} (hsame : session.live = (s.table i).live) (j : Nat)
    : ((s.setSession i session).table j).live = (s.table j).live := by
  show (if j = i then session else s.table j : Session).live = _
  split
  · next hj => rw [hj, hsame]
  · rfl

theorem setSession_pending {session : Session} (j : Nat) :
    ((s.setSession i session).table j).pending =
      if j = i then session.pending else (s.table j).pending := by
  show (if j = i then session else s.table j : Session).pending = _
  split <;> rfl

theorem Inv.unwritten (h : Inv loose s) (hun : Unregistered s.log r) (i id : Nat) (bytes : Bytes) :
    .wrote i (.request r id) bytes ∉ s.log := by
  intro hmem
  obtain ⟨before, ⟨-, -, hregistered⟩, hsub⟩ := h.lawful.past hmem
  exact hun i id (hsub (hregistered r id rfl).1)

/-- The invariant, and that a closed connection has no session. -/
structure Ended (loose : List Nat) (s : State) : Prop where
  inv : Inv loose s
  ended : s.closed = true → s.session = none

/-- **A request gets its place**, or is refused. -/
theorem Ended.register (h : Ended (r :: loose) s) (hr : r < s.requests) (hun : Unregistered s.log r)
    (hstatus : (s.request r).status ≠ .settled)
    (hbound : (s.request r).ask.session = none ∨ (s.request r).ask.session = some i) :
    Ended loose (s.register r i) := by
  obtain ⟨h, hended⟩ := h
  unfold State.register
  cases hlive : (s.table i).live with
  | false =>
    simp only [Bool.false_eq_true, not_false_eq_true, if_true]
    refine ⟨h.settle hr _ (fun _ => ⟨?_, hun⟩) (.inr fun j id => h.not_pending hun j id), ?_⟩
    · rw [← h.sessions.live i, hlive]
      decide
    · have hsteady := steady_settle s r (.notLive i)
      rw [hsteady.closed, hsteady.session]
      exact hended
  | true =>
    simp only [not_true_eq_false, if_false]
    have hfresh (r' j : Nat) : .registered r' j s.nextId ∉ s.log := fun hmem =>
      Nat.lt_irrefl _ (h.tables.registered r' j s.nextId hmem)
    have hnow (status : Status) (listener : Option (Nat × Nat)) (r' : Nat) :
        ((s.setRequest r { s.request r with status, listener }).request r').ask =
          (s.request r').ask ∧ (r' ≠ r →
        ((s.setRequest r { s.request r with status, listener }).request r').status =
          (s.request r').status) := by
      rw [setRequest_request]
      split
      · next heq => exact ⟨by rw [heq], fun hne => absurd heq hne⟩
      · exact ⟨rfl, fun _ => rfl⟩
    have hsub (j : Nat) : (s.table j).pending ⊆ ((s.setSession i { s.table i with
        pending := (s.table i).pending ++ [(s.nextId, .request r)] }).table j).pending := by
      rw [setSession_pending]
      split
      · next hj =>
        subst hj
        exact List.subset_append_left _ _
      · exact fun _ hx => hx
    have hin : (s.nextId, Owner.request r) ∈ ((s.setSession i { s.table i with
        pending := (s.table i).pending ++ [(s.nextId, .request r)] }).table i).pending := by
      rw [setSession_pending, if_pos rfl]
      exact List.mem_append_right _ (List.mem_singleton_self _)
    refine ⟨⟨h.lawful.snoc ⟨(h.sessions.live i).mp hlive, ⟨_, h.requests.bound r hr, hbound⟩, hun,
      h.unsettled hr hstatus, hfresh⟩, ?_, h.starts.note, ?_, ?_⟩, hended⟩
    · refine (h.sessions.note (by simp) (by simp) (by simp)).tables (setSession_live rfl) ?_
      intro j hj
      have hne : j ≠ i := by
        rintro rfl
        rw [hlive] at hj
        cases hj
      exact (setSession_pending j).trans ((if_neg hne).trans (h.sessions.dead j hj))
    · exact h.tables.register hun setSession_pending (fun r' hne => (hnow _ _ r').2 hne)
        (by rw [note_request]; exact congrArg Request.status (if_pos rfl))
    · refine h.requests.register hr hun (h.unsettled hr hstatus) (fun r' => (hnow _ _ r').1)
        (fun r' hne => (hnow _ _ r').2 hne) (congrArg Request.status (if_pos rfl))
        (setSession_live rfl) hlive hsub hin (h.unwritten hun)

theorem Ended.settle (h : Ended (r :: loose) s) (hr : r < s.requests) (how : Settlement)
    (hdeserved : Unsettled s.log r → Deserved s.log r how)
    (hpending : how = .threw ∨ ∀ i id, (id, Owner.request r) ∉ (s.table i).pending) :
    Ended loose (s.settle r how) := by
  have hsteady := steady_settle s r how
  refine ⟨h.inv.settle hr how hdeserved hpending, ?_⟩
  rw [hsteady.closed, hsteady.session]
  exact h.ended

/-! ## The calls of the owner -/

/-- A start begins where none is remembered. -/
def State.begin (s : State) : State :=
  { s with starts := s.starts + 1, ready := some s.starts }.setStart s.starts .command

theorem begin_start (s : State) (k : Nat) :
    s.begin.start k = if k = s.starts then .command else s.start k := rfl

theorem connect_eq (s : State) : s.connect =
    if s.closed = true then (s, none)
    else if s.ready = none then (s.begin, some s.starts) else (s, s.ready) := by
  unfold State.connect
  by_cases hclosed : s.closed = true
  · rw [if_pos hclosed, if_pos hclosed]
  · rw [if_neg hclosed, if_neg hclosed]
    split
    · next hready => rw [if_neg (by rw [hready]; simp), hready]
    · next hready =>
      rw [if_pos hready]
      rfl

/-- **A start begins.** -/
theorem Ended.begin (h : Ended loose s) (hready : s.ready = none) : Ended loose s.begin := by
  obtain ⟨h, hended⟩ := h
  refine ⟨⟨h.lawful, h.sessions, ?_, h.tables, ?_⟩, hended⟩
  · -- without a remembered start, none waits for its command, and there is no session
    constructor
    case command =>
      intro k hk
      rw [begin_start] at hk
      split at hk
      · next hne => exact congrArg some hne.symm
      · rw [h.starts.command k hk] at hready
        cases hready
    case remembered =>
      intro i hi
      obtain ⟨k, hk, -⟩ := h.starts.remembered i hi
      rw [hready] at hk
      cases hk
    case failed =>
      intro k hk failure stderr hf
      rw [begin_start] at hf
      split at hf
      · cases hf
      · next hne =>
        have hlt : k < s.starts + 1 := hk
        exact h.starts.failed k (by omega) failure stderr hf
    case ready =>
      rintro k ⟨⟩
      exact Nat.lt_succ_self s.starts
  · refine { h.requests with awaiting := fun r hr k hk => ?_ }
    refine (h.requests.awaiting r hr k hk).imp_right (Or.imp_right ?_)
    rintro ⟨hlt, hnone⟩
    exact ⟨Nat.lt_succ_of_lt hlt, hnone⟩

def State.made (s : State) (request : Request) : State :=
  ({ s with requests := s.requests + 1 }.setRequest s.requests request).note
    (.requested s.requests request.ask.session)

theorem made_request (s : State) (request : Request) (r : Nat) :
    (s.made request).request r = if r = s.requests then request else s.request r := rfl

theorem Inv.unknown (h : Inv loose s) :
    Unregistered s.log s.requests ∧ Unsettled s.log s.requests := by
  constructor
  · by_contra hne
    exact Nat.lt_irrefl _ (h.requests.known _ (.inl hne))
  · by_contra hne
    exact Nat.lt_irrefl _ (h.requests.known _ (.inr hne))

/-- **A request is made**, and has no place yet. -/
theorem Ended.made (h : Ended [] s) (request : Request) (k : Nat)
    (hstatus : request.status = .awaiting k) : Ended [s.requests] (s.made request) := by
  obtain ⟨h, hended⟩ := h
  obtain ⟨hun, hunsettled⟩ := h.unknown
  have hother (x : Entry) (hx : ∀ r bound, x ≠ .requested r bound) :
      x ∈ s.log ++ [.requested s.requests request.ask.session] ↔ x ∈ s.log := mem_note (hx _ _)
  have hold (r : Nat) (hr : r < s.requests) : (s.made request).request r = s.request r := by
    rw [made_request, if_neg (by omega)]
  have hnew : (s.made request).request s.requests = request := by
    rw [made_request, if_pos rfl]
  have hunNote (r : Nat) : Unregistered (s.made request).log r ↔ Unregistered s.log r := by
    simp only [Unregistered]
    exact forall_congr' fun i => forall_congr' fun id => (hother _ (by simp)).not
  have hsetNote (r : Nat) : Unsettled (s.made request).log r ↔ Unsettled s.log r := by
    simp only [Unsettled]
    exact forall_congr' fun how => (hother _ (by simp)).not
  -- the old requests, and the new one
  have hcases {P : Nat → Prop} (hlt : ∀ r < s.requests, P r) (hlast : P s.requests) :
      ∀ r < (s.made request).requests, P r := by
    intro r hr
    have hr' : r < s.requests + 1 := hr
    rcases Nat.lt_or_ge r s.requests with hr | hr
    · exact hlt r hr
    · rwa [show r = s.requests by omega]
  refine ⟨⟨h.lawful.snoc fun bound hmem => ?_, h.sessions.note (by simp) (by simp) (by simp),
    h.starts.note, ?_, ?_⟩, hended⟩
  · exact Nat.lt_irrefl _ ((h.requests.requested s.requests).mp ⟨bound, hmem⟩)
  · refine { h.tables.note (e := .requested s.requests request.ask.session) (by simp) with
      pending := fun i id r hmem => ?_ }
    obtain ⟨hlog, hwhere⟩ := h.tables.pending i id r hmem
    have hr : r < s.requests := h.requests.known r (.inl fun hnot => hnot i id hlog)
    rw [hold r hr]
    exact ⟨List.mem_append_left _ hlog, hwhere.imp_right (List.mem_append_left _)⟩
  · constructor
    case requested =>
      intro r
      show (∃ bound, .requested r bound ∈ s.log ++ [_]) ↔ r < s.requests + 1
      constructor
      · rintro ⟨bound, hmem⟩
        rcases List.mem_append.mp hmem with hmem | hmem
        · exact Nat.lt_succ_of_lt ((h.requests.requested r).mp ⟨bound, hmem⟩)
        · cases List.mem_singleton.mp hmem
          exact Nat.lt_succ_self _
      · intro hr
        by_cases hne : r = s.requests
        · subst hne
          exact ⟨_, List.mem_append_right _ (List.mem_singleton_self _)⟩
        · obtain ⟨bound, hmem⟩ := (h.requests.requested r).mpr (by omega)
          exact ⟨bound, List.mem_append_left _ hmem⟩
    case beyond =>
      intro r hr
      have hr' : s.requests + 1 ≤ r := hr
      rw [made_request, if_neg (by omega)]
      exact h.requests.beyond r (by omega)
    case bound =>
      refine hcases (fun r hr => ?_) ?_
      · rw [hold r hr]
        exact List.mem_append_left _ (h.requests.bound r hr)
      · rw [hnew]
        exact List.mem_append_right _ (List.mem_singleton_self _)
    case known =>
      intro r hk
      rw [hunNote, hsetNote] at hk
      exact Nat.lt_succ_of_lt (h.requests.known r hk)
    case settled =>
      refine hcases (fun r hr => ?_) ?_
      · rw [hold r hr, hsetNote]
        exact h.requests.settled r hr
      · rw [hnew, hstatus, hsetNote]
        exact iff_of_false (by rintro ⟨⟩) (not_not_intro hunsettled)
    case awaiting =>
      refine hcases (fun r hr k' hk' => ?_) ?_
      · rw [hold r hr] at hk'
        obtain ⟨hunr, hwhere⟩ := h.requests.awaiting r hr k' hk'
        rw [hunNote, hold r hr]
        exact ⟨hunr, .inr (hwhere.resolve_left List.not_mem_nil)⟩
      · intro k' _
        rw [hunNote]
        exact ⟨hun, .inl (List.mem_singleton_self _)⟩
    case place =>
      refine hcases (fun r hr i id hs => ?_) ?_
      · rw [hold r hr] at hs
        obtain ⟨hlog, hplace⟩ := h.requests.place r hr i id hs
        obtain ⟨hlive, hpending, hwait⟩ := hplace.resolve_left List.not_mem_nil
        exact ⟨List.mem_append_left _ hlog, .inr ⟨hlive, hpending, hwait.imp_right fun hwait =>
          hwait.note (by rintro m ⟨⟩)⟩⟩
      · intro i id hs
        rw [hnew, hstatus] at hs
        cases hs
    case nodup => exact h.requests.nodup
    case sending =>
      intro r hr
      obtain ⟨hregistered, hunwritten⟩ := h.requests.sending r hr
      refine ⟨(hunNote r).not.mpr hregistered, fun i id bytes => ?_⟩
      rw [show (s.made request).log = s.log ++ [_] from rfl, hother _ (by simp)]
      exact hunwritten i id bytes

theorem Ended.sound (h : Ended [] s) : Sound s := ⟨h.inv, h.ended⟩

theorem Sound.toEnded (h : Sound s) : Ended [] s := ⟨h.toInv, h.ended⟩

/-- A request waits for a start. -/
theorem Ended.await (h : Ended [r] s) (hr : r < s.requests) {request : Request} {k : Nat}
    (hun : Unregistered s.log r) (hask : request.ask = (s.request r).ask)
    (hnone : request.ask.session = none) (hstatus : request.status = .awaiting k)
    (hunsettled : Unsettled s.log r) (hk : k < s.starts) : Ended [] (s.setRequest r request) := by
  obtain ⟨h, hended⟩ := h
  have hasks (r' : Nat) : ((s.setRequest r request).request r').ask = (s.request r').ask := by
    rw [setRequest_request]
    split
    · next heq => rw [heq, hask]
    · rfl
  have hothers (r' : Nat) (hne : r' ≠ r) : (s.setRequest r request).request r' = s.request r' := by
    rw [setRequest_request, if_neg hne]
  have hnow : ((s.setRequest r request).request r).status = .awaiting k := by
    rw [setRequest_request, if_pos rfl, hstatus]
  refine ⟨⟨h.lawful, h.sessions, h.starts, { h.tables with pending := ?_ },
    { h.requests with beyond := ?_, bound := ?_, settled := ?_, awaiting := ?_, place := ?_ }⟩,
    hended⟩
  · intro i id r' hmem
    have hpending := h.tables.pending i id r' hmem
    rw [hothers r' (by rintro rfl; exact hun i id hpending.1)]
    exact hpending
  · intro r' hr'
    have hle : s.requests ≤ r' := hr'
    rw [hothers r' (by omega)]
    exact h.requests.beyond r' hr'
  · intro r' hr'
    rw [hasks]
    exact h.requests.bound r' hr'
  · intro r' hr'
    by_cases hne : r' = r
    · subst hne
      rw [hnow]
      exact iff_of_false (by rintro ⟨⟩) (not_not_intro hunsettled)
    · rw [hothers r' hne]
      exact h.requests.settled r' hr'
  · intro r' hr' k' hk'
    by_cases hne : r' = r
    · subst hne
      rw [hnow] at hk'
      cases hk'
      exact ⟨hun, .inr ⟨hk, by rw [hasks, ← hask, hnone]⟩⟩
    · rw [hothers r' hne] at hk' ⊢
      obtain ⟨hunr, hwhere⟩ := h.requests.awaiting r' hr' k' hk'
      exact ⟨hunr, hwhere.imp_left fun hl => absurd (List.mem_singleton.mp hl) hne⟩
  · intro r' hr' i id hs
    by_cases hne : r' = r
    · subst hne
      rw [hnow] at hs
      cases hs
    · rw [hothers r' hne] at hs
      obtain ⟨hlog, hplace⟩ := h.requests.place r' hr' i id hs
      exact ⟨hlog, hplace.imp_left fun hl => absurd (List.mem_singleton.mp hl) hne⟩

theorem askFor_eq (s : State) (ask : Ask) {r : Request}
    (hr : r = ⟨ask, ask.signal = some true, none, .awaiting 0⟩) :
    s.askFor ask = match ask.session with
      | some i => if (s.made r).session = some i ∧ ((s.made r).table i).live then
          (s.made r).register s.requests i else (s.made r).settle s.requests (.notLive i)
      | none => match (s.made r).connect with
        | (s', none) => s'.settle s.requests .closed
        | (s', some k) => s'.setRequest s.requests { r with status := .awaiting k } := by
  subst hr
  rfl

/-- **`request`**, until it waits. -/
theorem Sound.askFor (h : Sound s) (ask : Ask) : Sound (s.askFor ask) := by
  obtain ⟨hun, hunsettled⟩ := h.unknown
  let request : Request := ⟨ask, ask.signal = some true, none, .awaiting 0⟩
  have hmade := h.toEnded.made request 0 rfl
  have hr : s.requests < (s.made request).requests := Nat.lt_succ_self _
  have hnew : (s.made request).request s.requests = request := by
    rw [made_request, if_pos rfl]
  have hunMade : Unregistered (s.made request).log s.requests := fun i id hmem => by
    rw [show (s.made request).log = s.log ++ [_] from rfl, mem_note (by simp)] at hmem
    exact hun i id hmem
  have hunsettledMade : Unsettled (s.made request).log s.requests := fun how hmem => by
    rw [show (s.made request).log = s.log ++ [_] from rfl, mem_note (by simp)] at hmem
    exact hunsettled how hmem
  have hnotPending : ∀ i id, (id, Owner.request s.requests) ∉ ((s.made request).table i).pending :=
    hmade.inv.not_pending hunMade
  rw [askFor_eq s ask (r := request) rfl]
  cases hbound : ask.session with
  | some i =>
    dsimp only
    split
    · refine (hmade.register hr hunMade ?_ (.inr ?_)).sound
      · rw [hnew]
        rintro ⟨⟩
      · rw [hnew]
        exact hbound
    · next hnot =>
      refine (hmade.settle hr (.notLive i) (fun _ => ⟨fun hlive => hnot ?_, hunMade⟩) (.inr hnotPending)).sound
      have hi := (hmade.inv.sessions.live i).mpr hlive
      exact ⟨(hmade.inv.sessions.current i).mp hi, hi⟩
  | none =>
    rw [connect_eq]
    dsimp only
    by_cases hclosed : (s.made request).closed = true
    · rw [if_pos hclosed]
      refine (hmade.settle hr .closed (fun _ => ⟨?_, hunMade⟩) (.inr hnotPending)).sound
      exact hmade.inv.sessions.closed.mp hclosed
    · rw [if_neg hclosed]
      cases hready : (s.made request).ready with
      | none =>
        rw [if_pos rfl]
        have hbegin := hmade.begin hready
        refine (hbegin.await hr hunMade ?_ hbound rfl hunsettledMade (Nat.lt_succ_self _)).sound
        show ask = ((s.made request).request s.requests).ask
        rw [hnew]
      | some k =>
        rw [if_neg (by simp)]
        refine (hmade.await hr hunMade ?_ hbound rfl hunsettledMade
          (hmade.inv.starts.ready k hready)).sound
        rw [hnew]

/-- **A request goes on behind its start.** -/
theorem Sound.resume (h : Sound s) (r : Nat) : Sound (s.resume r) := by
  unfold State.resume
  split
  · next k hstatus =>
    have hr : r < s.requests := by
      by_contra hge
      rw [h.requests.beyond r (by omega)] at hstatus
      cases hstatus
    obtain ⟨hun, hwhere⟩ := h.requests.awaiting r hr k hstatus
    obtain ⟨hk, hnone⟩ := hwhere.resolve_left List.not_mem_nil
    have hloose : Ended [r] s := ⟨h.toInv.mono (List.nil_subset _), h.ended⟩
    split
    · refine (hloose.register hr hun ?_ (.inl hnone)).sound
      rw [hstatus]
      rintro ⟨⟩
    · next failure stderr hfailed =>
      refine (hloose.settle hr (.start k failure stderr) (fun _ => ⟨?_, hun⟩) (.inr (h.not_pending hun))).sound
      exact h.starts.failed k hk failure stderr hfailed
    · exact h
  · exact h

theorem steady_write (s : State) (i : Nat) (what : Written) (bytes : Option Bytes) :
    Steady s (s.write i what bytes) := by
  unfold State.write
  split
  · exact Steady.refl s
  · split
    · exact ⟨rfl, rfl, rfl, rfl, rfl, fun _ hx => List.mem_append_left _ hx, fun _ _ _ hk => hk⟩
    · exact Steady.refl s

/-- A frame that is no request's is written. -/
theorem Ended.write (h : Ended loose s) (i : Nat) {what : Written}
    (hwhat : ∀ r id, what ≠ .request r id) (bytes : Option Bytes) :
    Ended loose (s.write i what bytes) := by
  have hsteady := steady_write s i what bytes
  refine ⟨h.inv.write h.ended i hwhat bytes, ?_⟩
  rw [hsteady.closed, hsteady.session]
  exact h.ended

/-- The next request that waits behind its start. -/
theorem Sound.popped (h : Sound s) {rest : List Nat} (hsending : s.sending = r :: rest) :
    Ended [r] { s with sending := rest } ∧ r ∉ rest := by
  have hnodup := h.requests.nodup
  rw [hsending] at hnodup
  refine ⟨⟨⟨h.lawful, h.sessions, h.starts, h.tables, { h.requests.mono (List.nil_subset [r]) with
    place := fun r' hr' i id hs => ?_, nodup := (List.nodup_cons.mp hnodup).2,
    sending := fun r' hr' => h.requests.sending r' ?_ }⟩, h.ended⟩, (List.nodup_cons.mp hnodup).1⟩
  · obtain ⟨hlog, hplace⟩ := h.requests.place r' hr' i id hs
    refine ⟨hlog, ?_⟩
    obtain ⟨hlive, hpending, hwait⟩ := hplace.resolve_left List.not_mem_nil
    by_cases hne : r' = r
    · exact .inl (List.mem_singleton.mpr hne)
    · refine .inr ⟨hlive, hpending, hwait.imp_left fun hmem => ?_⟩
      rw [hsending] at hmem
      exact (List.mem_cons.mp hmem).resolve_left hne
  · rw [hsending]
    exact List.mem_cons_of_mem r hr'

/-- **A send goes on behind `onStart`**: it writes the frame, or rejects the promise. -/
theorem Sound.returned (h : Sound s) (io : Serialisers) {rest : List Nat}
    (hsending : s.sending = r :: rest) (throws : Bool) :
    Sound (if throws then ({ s with sending := rest } : State).settle r .threw
      else match (s.request r).status with
        | .registered i id => ({ s with sending := rest } : State).sent io r i id
        | _ => { s with sending := rest }) := by
  obtain ⟨hloose, hnotin⟩ := h.popped hsending
  have hmem : r ∈ s.sending := by
    rw [hsending]
    exact List.mem_cons_self
  obtain ⟨hregistered, hunwritten⟩ := h.requests.sending r hmem
  have hr : r < s.requests := h.requests.known r (.inl hregistered)
  have hthrew : Ended [] (({ s with sending := rest } : State).settle r .threw) := by
    refine hloose.settle hr .threw (fun _ => ⟨?_, hunwritten⟩) (.inl rfl)
    simpa only [Unregistered, not_forall, not_not] using hregistered
  split
  · exact hthrew.sound
  · split
    · next i id hstatus =>
      obtain ⟨-, hplace⟩ := h.requests.place r hr i id hstatus
      obtain ⟨hlive, hpending, -⟩ := hplace.resolve_left List.not_mem_nil
      unfold State.sent
      split
      · exact hthrew.sound
      · next bytes _ =>
        have hwritten := hloose.inv.writeRequest hloose.ended hr hstatus hlive hpending hnotin bytes
        have hsteady := steady_write { s with sending := rest } i (.request r id) (some bytes)
        have hended : Ended [] (({ s with sending := rest } : State).write i (.request r id)
            (some bytes)) := by
          refine ⟨hwritten, ?_⟩
          rw [hsteady.closed, hsteady.session]
          exact h.ended
        dsimp only
        split
        · exact (hended.write i (by rintro _ _ ⟨⟩) _).sound
        · exact hended.sound
    · next hother =>
      -- the session went down inside of `onStart`
      refine Ended.sound ⟨hloose.inv.tight ?_, h.ended⟩
      show (s.request r).status = .settled
      cases hstatus : (s.request r).status with
      | awaiting k => exact absurd (h.requests.awaiting r hr k hstatus).1 hregistered
      | registered i id => exact absurd hstatus (hother i id)
      | settled => rfl

/-- **`close`** -/
theorem Sound.close (h : Sound s) : Sound s.close := by
  have hclosed : Inv [] ({ s with closed := true }.note .closed) := by
    refine ⟨h.lawful.snoc trivial, ?_, h.starts.note, h.tables.note (by simp),
      h.requests.note (by simp) (by simp) (by simp) (by simp) (by simp)⟩
    constructor
    case live =>
      intro i
      show (s.table i).live = true ↔ Live (s.log ++ [.closed]) i
      rw [live_note (by simp) (by simp), h.sessions.live]
    case current => exact h.sessions.current
    case dead => exact h.sessions.dead
    case spawned =>
      intro i hi
      have hmem : .spawned i ∈ s.log ++ [.closed] := hi
      rw [mem_note (by simp)] at hmem
      exact h.sessions.spawned i hmem
    case closed => exact iff_of_true rfl (List.mem_append_right _ (List.mem_singleton_self _))
  unfold State.close
  dsimp only
  split
  · next i hsession =>
    obtain ⟨hinv, -, hnone⟩ := hclosed.teardown i .closed
    exact ⟨hinv, fun _ => hnone.trans (if_pos hsession)⟩
  · next hsession => exact ⟨hclosed, fun _ => hsession⟩

/-- The owner kills a session. -/
theorem Sound.kill (h : Sound s) (io : Serialisers) (id i : Nat) : Sound (s.kill io id i) := by
  unfold State.kill
  split
  · exact (h.toEnded.write i (by rintro _ _ ⟨⟩) _).sound
  · exact h

/-- A signal is aborted. -/
theorem Sound.abort (h : Sound s) (io : Serialisers) (r : Nat) : Sound (s.abort io r) := by
  unfold State.abort
  dsimp only
  split
  · have hset : Ended [] (s.setRequest r { s.request r with aborted := true, listener := none }) :=
      ⟨h.toInv.setRequest rfl rfl, h.ended⟩
    split
    · exact (hset.write _ (by rintro _ _ ⟨⟩) _).sound
    · exact hset.sound
  · exact h

end ThreeXhaust.Env.Connection
