import ThreeXhaust.Env.ConnectionInvariant
import ThreeXhaust.Lib.Assoc
import Mathlib.Data.List.Nodup

/-!
# The parts of a step of a connection

What settling, writing, a start and a teardown each keep of the invariant. A part that may find
requests without a place takes them as `loose` and says which ones it has dealt with; `Steady` is
what all of them leave alone.
-/

namespace ThreeXhaust.Env.Connection

variable {loose loose' : List Nat} {s : State} {e : Entry} {r : Nat}

/-! ## Entries -/

variable {table : Nat → Session} {request : Nat → Request} {requests starts : Nat}
  {sending : List Nat}

theorem Requests.mono {log : List Entry}
    (h : Requests loose log table request requests starts sending) (hsub : loose ⊆ loose') :
    Requests loose' log table request requests starts sending where
  requested := h.requested
  beyond := h.beyond
  bound := h.bound
  known := h.known
  settled := h.settled
  awaiting r hr k hk := (h.awaiting r hr k hk).imp_right (Or.imp_left fun hl => hsub hl)
  place r hr i id hs := (h.place r hr i id hs).imp_right (Or.imp_left fun hl => hsub hl)
  nodup := h.nodup
  sending := h.sending

theorem Inv.mono (h : Inv loose s) (hsub : loose ⊆ loose') : Inv loose' s :=
  { h with requests := h.requests.mono hsub }

/-- A request that is settled needs no place. -/
theorem Inv.tight (h : Inv (r :: loose) s) (hsettled : (s.request r).status = .settled) :
    Inv loose s := by
  refine { h with requests := { h.requests with awaiting := ?_, place := ?_ } }
  · intro r' hr' k hk
    refine (h.requests.awaiting r' hr' k hk).imp_right (Or.imp_left fun hl => ?_)
    rcases List.mem_cons.mp hl with rfl | hl
    · rw [hsettled] at hk
      cases hk
    · exact hl
  · intro r' hr' i id hs
    refine (h.requests.place r' hr' i id hs).imp_right (Or.imp_left fun hl => ?_)
    rcases List.mem_cons.mp hl with rfl | hl
    · rw [hsettled] at hs
      cases hs
    · exact hl

/-- The entries that no part of the invariant but the log speaks of. -/
inductive Quiet (s : State) (loose : List Nat) : Entry → Prop where
  | wrote (i : Nat) (what : Written) (bytes : Bytes)
      (h : ∀ r id, what = .request r id → r ∉ s.sending) : Quiet s loose (.wrote i what bytes)
  | received (i : Nat) (m : Message)
      (h : IsReply m → ∀ r, (m.id, Owner.request r) ∈ (s.table i).pending → r ∈ loose) :
      Quiet s loose (.received i m)
  | event (r i : Nat) (m : Message) : Quiet s loose (.event r i m)
  | startFailed (k : Nat) : Quiet s loose (.startFailed k)

/-- **A quiet entry.** -/
theorem Inv.note (h : Inv loose s) (ha : Allowed s.log e) (hq : Quiet s loose e) :
    Inv loose (s.note e) := by
  refine ⟨h.lawful.snoc ha, ?_, h.starts.note, ?_, ?_⟩
  · exact h.sessions.note (by rintro i rfl; cases hq) (by rintro i rfl; cases hq)
      (by rintro rfl; cases hq)
  · exact h.tables.note (by rintro r i id rfl; cases hq)
  · refine h.requests.note (by rintro r bound rfl; cases hq) (by rintro r i id rfl; cases hq)
      (by rintro r how rfl; cases hq) ?_ ?_
    · rintro i m r rfl hreply hpending
      cases hq with
      | received _ _ hloose => exact hloose hreply r hpending
    · rintro i r id bytes rfl
      cases hq with
      | wrote _ _ _ hsending => exact hsending r id rfl

/-! ## Requests -/

@[simp] theorem setRequest_request (s : State) (r : Nat) (request : Request) (r' : Nat) :
    (s.setRequest r request).request r' = if r' = r then request else s.request r' := rfl

@[simp] theorem note_request (s : State) (e : Entry) : (s.note e).request = s.request := rfl

variable {request' : Nat → Request}

theorem Tables.options {log : List Entry} {nextId : Nat} (h : Tables log table request nextId)
    (hstatus : ∀ r, (request' r).status = (request r).status)
    : Tables log table request' nextId where
  ids := h.ids
  registered := h.registered
  pending := by simpa only [hstatus] using h.pending
  keys := h.keys

theorem Requests.options {log : List Entry}
    (h : Requests loose log table request requests starts sending)
    (hask : ∀ r, (request' r).ask = (request r).ask)
    (hstatus : ∀ r, (request' r).status = (request r).status) :
    Requests loose log table request' requests starts sending where
  requested := h.requested
  beyond := by simpa only [hstatus] using h.beyond
  bound := by simpa only [hask] using h.bound
  known := h.known
  settled := by simpa only [hstatus] using h.settled
  awaiting := by simpa only [hask, hstatus] using h.awaiting
  place := by simpa only [hstatus] using h.place
  nodup := h.nodup
  sending := h.sending

theorem Inv.setRequest (h : Inv loose s) {request : Request}
    (hask : request.ask = (s.request r).ask) (hstatus : request.status = (s.request r).status) :
    Inv loose (s.setRequest r request) := by
  have hasks (r' : Nat) : ((s.setRequest r request).request r').ask = (s.request r').ask := by
    rw [setRequest_request]
    split
    · next heq => rw [heq, hask]
    · rfl
  have hstatuses (r' : Nat) :
      ((s.setRequest r request).request r').status = (s.request r').status := by
    rw [setRequest_request]
    split
    · next heq => rw [heq, hstatus]
    · rfl
  exact ⟨h.lawful, h.sessions, h.starts, h.tables.options hstatuses,
    h.requests.options hasks hstatuses⟩

theorem Tables.settle {log : List Entry} {nextId : Nat} (h : Tables log table request nextId)
    {how : Settlement} (hstatus : ∀ r', r' ≠ r → (request' r').status = (request r').status)
    (hpending : how = .threw ∨ ∀ i id, (id, Owner.request r) ∉ (table i).pending) :
    Tables (log ++ [.settled r how]) table request' nextId := by
  refine { h.note (e := .settled r how) (by rintro r i id ⟨⟩) with pending := ?_ }
  intro i id r' hp
  obtain ⟨hlog, hold⟩ := h.pending i id r' hp
  refine ⟨List.mem_append_left _ hlog, ?_⟩
  by_cases hr : r' = r
  · subst hr
    rcases hpending with rfl | hnone
    · exact .inr (List.mem_append_right _ (List.mem_singleton_self _))
    · exact absurd hp (hnone i id)
  · rw [hstatus r' hr]
    exact hold.imp_right (List.mem_append_left _)

/-- What settling a request says of it and of the others. -/
theorem Requests.settle {log : List Entry}
    (h : Requests (r :: loose) log table request requests starts sending) (hr : r < requests)
    {how : Settlement} (hask : ∀ r, (request' r).ask = (request r).ask)
    (hstatus : ∀ r', r' ≠ r → (request' r').status = (request r').status)
    (hsettled : (request' r).status = .settled) :
    Requests loose (log ++ [.settled r how]) table request' requests starts sending := by
  have hun (r' : Nat) : Unregistered (log ++ [.settled r how]) r' ↔ Unregistered log r' := by
    simp only [Unregistered, mem_note (e := .settled r how) (x := .registered r' _ _) (by simp)]
  have hset (r' : Nat) (hne : r' ≠ r) :
      Unsettled (log ++ [.settled r how]) r' ↔ Unsettled log r' := by
    have hx (how' : Settlement) : (Entry.settled r' how') ≠ .settled r how := by
      rintro ⟨⟩
      exact hne rfl
    simp only [Unsettled, mem_note (hx _)]
  have hnow : ¬ Unsettled (log ++ [.settled r how]) r := fun hnot =>
    hnot how (List.mem_append_right _ (List.mem_singleton_self _))
  have hloose (r' : Nat) (hne : r' ≠ r) (hl : r' ∈ r :: loose) : r' ∈ loose :=
    (List.mem_cons.mp hl).resolve_left hne
  constructor
  case requested =>
    simpa only [mem_note (e := .settled r how) (x := .requested _ _) (by simp)] using h.requested
  case beyond =>
    intro r' hr'
    rw [hstatus r' (by omega)]
    exact h.beyond r' hr'
  case bound =>
    simpa only [hask, mem_note (e := .settled r how) (x := .requested _ _) (by simp)] using h.bound
  case known =>
    intro r' hk
    by_cases hne : r' = r
    · rwa [hne]
    · exact h.known r' (by rwa [hun, hset r' hne] at hk)
  case settled =>
    intro r' hr'
    by_cases hne : r' = r
    · subst hne
      exact iff_of_true hsettled hnow
    · rw [hstatus r' hne, hset r' hne]
      exact h.settled r' hr'
  case awaiting =>
    intro r' hr' k hk
    have hne : r' ≠ r := by
      rintro rfl
      rw [hsettled] at hk
      cases hk
    rw [hstatus r' hne] at hk
    rw [hun, hask]
    exact (h.awaiting r' hr' k hk).imp_right (Or.imp_left (hloose r' hne))
  case place =>
    intro r' hr' i id hs
    have hne : r' ≠ r := by
      rintro rfl
      rw [hsettled] at hs
      cases hs
    rw [hstatus r' hne] at hs
    obtain ⟨hlog, hplace⟩ := h.place r' hr' i id hs
    refine ⟨List.mem_append_left _ hlog, hplace.imp (hloose r' hne) ?_⟩
    rintro ⟨hlive, hpending, hwait⟩
    exact ⟨hlive, hpending, hwait.imp_right fun hwait => hwait.note (by rintro m ⟨⟩)⟩
  case nodup => exact h.nodup
  case sending =>
    intro r' hr'
    obtain ⟨hregistered, hunwritten⟩ := h.sending r' hr'
    refine ⟨(hun r').not.mpr hregistered, fun i id bytes hmem => ?_⟩
    rw [mem_note (by simp)] at hmem
    exact hunwritten i id bytes hmem

/-- **A promise settles.** -/
theorem Inv.settle (h : Inv (r :: loose) s) (hr : r < s.requests) (how : Settlement)
    (hdeserved : Unsettled s.log r → Deserved s.log r how)
    (hpending : how = .threw ∨ ∀ i id, (id, Owner.request r) ∉ (s.table i).pending) :
    Inv loose (s.settle r how) := by
  unfold State.settle
  split
  · next hsettled => exact h.tight hsettled
  · next hne =>
    have hunsettled : Unsettled s.log r := by
      by_contra hset
      exact hne ((h.requests.settled r hr).mpr hset)
    have hstatus (r' : Nat) (hother : r' ≠ r) : ((s.setRequest r
        { s.request r with status := .settled }).request r').status = (s.request r').status := by
      rw [setRequest_request, if_neg hother]
    refine ⟨h.lawful.snoc ⟨hunsettled, hdeserved hunsettled⟩, ?_, h.starts.note,
      h.tables.settle hstatus hpending, h.requests.settle hr ?_ hstatus ?_⟩
    · exact h.sessions.note (by simp) (by simp) (by simp)
    · intro r'
      rw [note_request, setRequest_request]
      split
      · next heq => rw [heq]
      · rfl
    · rw [note_request, setRequest_request, if_pos rfl]

/-! ## Writing -/

variable {i : Nat}

theorem Inv.open_of_live (h : Inv loose s) (hended : s.closed = true → s.session = none)
    (hlive : (s.table i).live = true) : .closed ∉ s.log := by
  intro hclosed
  have hnone := hended (h.sessions.closed.mpr hclosed)
  rw [(h.sessions.current i).mp hlive] at hnone
  cases hnone

/-- **A frame is written** that is no request's. -/
theorem Inv.write (h : Inv loose s) (hended : s.closed = true → s.session = none) (i : Nat)
    {what : Written} (hwhat : ∀ r id, what ≠ .request r id) (bytes : Option Bytes) :
    Inv loose (s.write i what bytes) := by
  unfold State.write
  split
  · exact h
  · split
    · next hlive =>
      refine h.note ⟨h.open_of_live hended hlive, (h.sessions.live i).mp hlive, ?_⟩
        (.wrote i what _ ?_)
      · exact fun r id heq => absurd heq (hwhat r id)
      · exact fun r id heq => absurd heq (hwhat r id)
    · exact h

/-- **The bytes of a request** are written, and it has its place. -/
theorem Inv.writeRequest (h : Inv (r :: loose) s) (hended : s.closed = true → s.session = none)
    (hr : r < s.requests) {id : Nat} (hstatus : (s.request r).status = .registered i id)
    (hlive : (s.table i).live = true) (hpending : (id, Owner.request r) ∈ (s.table i).pending)
    (hsending : r ∉ s.sending) (bytes : Bytes) :
    Inv loose (s.write i (.request r id) (some bytes)) := by
  have hunsettled : Unsettled s.log r := by
    by_contra hset
    rw [(h.requests.settled r hr).mpr hset] at hstatus
    cases hstatus
  have hwritten : Inv (r :: loose) (s.note (.wrote i (.request r id) bytes)) := by
    refine h.note ⟨h.open_of_live hended hlive, (h.sessions.live i).mp hlive, ?_⟩ (.wrote i _ _ ?_)
    · rintro _ _ ⟨⟩
      exact ⟨(h.requests.place r hr i id hstatus).1, hunsettled⟩
    · rintro _ _ ⟨⟩
      exact hsending
  show Inv loose (if (s.table i).live then s.note (.wrote i (.request r id) bytes) else s)
  rw [if_pos hlive]
  have hwaiting : Waiting (s.log ++ [.wrote i (.request r id) bytes]) r i id :=
    ⟨s.log, bytes, [], rfl, fun m hm => by cases hm⟩
  refine { hwritten with requests := { hwritten.requests with awaiting := ?_, place := ?_ } }
  · intro r' hr' k hk
    refine (hwritten.requests.awaiting r' hr' k hk).imp_right (Or.imp_left fun hl => ?_)
    rcases List.mem_cons.mp hl with rfl | hl
    · rw [show (s.request r').status = _ from hk] at hstatus
      cases hstatus
    · exact hl
  · intro r' hr' i' id' hs
    obtain ⟨hlog, hplace⟩ := hwritten.requests.place r' hr' i' id' hs
    refine ⟨hlog, ?_⟩
    by_cases hne : r' = r
    · subst hne
      rw [show (s.request r').status = _ from hs] at hstatus
      cases hstatus
      exact .inr ⟨hlive, hpending, .inr hwaiting⟩
    · exact hplace.imp_left fun hl => (List.mem_cons.mp hl).resolve_left hne

/-! ## Starts -/

theorem Starts.set {log : List Entry} {start : Nat → Start} {ready session : Option Nat}
    (h : Starts log start starts ready session) (k : Nat) {new : Start} (hnew : new ≠ .command)
    (hhas : ∀ i, session = some i → Has (start k) i → Has new i)
    (hfailed : ∀ failure stderr, new = .failed failure stderr → .startFailed k ∈ log) :
    Starts log (fun j => if j = k then new else start j) starts ready session where
  command j hj := by
    split at hj
    · exact absurd hj hnew
    · exact h.command j hj
  remembered i hi := by
    obtain ⟨j, hready, hj⟩ := h.remembered i hi
    refine ⟨j, hready, ?_⟩
    split
    · next heq => exact hhas i hi (heq ▸ hj)
    · exact hj
  failed j hj failure stderr hf := by
    split at hf
    · next heq => exact heq ▸ hfailed failure stderr hf
    · exact h.failed j hj failure stderr hf
  ready := h.ready

/-- A start goes on. -/
theorem Inv.setStart (h : Inv loose s) (k : Nat) {new : Start} (hnew : new ≠ .command)
    (hhas : ∀ i, s.session = some i → Has (s.start k) i → Has new i)
    (hfailed : ∀ failure stderr, new = .failed failure stderr → .startFailed k ∈ s.log) :
    Inv loose (s.setStart k new) :=
  ⟨h.lawful, h.sessions, h.starts.set k hnew hhas hfailed, h.tables, h.requests⟩

/-- What a change of requests and starts leaves as it is, besides entries that it adds. -/
structure Steady (s s' : State) : Prop where
  session : s'.session = s.session
  closed : s'.closed = s.closed
  table : s'.table = s.table
  requests : s'.requests = s.requests
  sending : s'.sending = s.sending
  log : s.log ⊆ s'.log
  decided : ∀ k i outcome, s.start k = .decided i outcome → s'.start k = .decided i outcome

theorem Steady.refl (s : State) : Steady s s :=
  ⟨rfl, rfl, rfl, rfl, rfl, fun _ h => h, fun _ _ _ h => h⟩

theorem Steady.trans {s' s'' : State} (h : Steady s s') (h' : Steady s' s'') : Steady s s'' :=
  ⟨h'.session.trans h.session, h'.closed.trans h.closed, h'.table.trans h.table,
    h'.requests.trans h.requests, h'.sending.trans h.sending, fun _ hx => h'.log (h.log hx),
    fun k i outcome hk => h'.decided k i outcome (h.decided k i outcome hk)⟩

theorem steady_decide (s : State) (k : Nat) (outcome : Except Failure Data) :
    Steady s (s.decide k outcome) := by
  unfold State.decide
  split
  · next hhello =>
    refine ⟨rfl, rfl, rfl, rfl, rfl, fun _ h => h, fun j i o hj => ?_⟩
    have hne : j ≠ k := by
      rintro rfl
      rw [hhello] at hj
      cases hj
    show (if j = k then _ else s.start j) = _
    rw [if_neg hne]
    exact hj
  · exact Steady.refl s

/-- A start is decided. -/
theorem Inv.decide (h : Inv loose s) (k : Nat) (outcome : Except Failure Data) :
    Inv loose (s.decide k outcome) := by
  unfold State.decide
  split
  · next i hhello =>
    refine h.setStart k (by simp) (fun j _ hj => ?_) (by simp)
    rw [hhello] at hj
    cases hj
    exact .decided i outcome
  · exact h

theorem steady_settle (s : State) (r : Nat) (how : Settlement) : Steady s (s.settle r how) := by
  unfold State.settle
  split
  · exact Steady.refl s
  · exact ⟨rfl, rfl, rfl, rfl, rfl, fun _ h => List.mem_append_left _ h, fun _ _ _ h => h⟩

theorem steady_finish (s : State) (owner : Owner) (outcome : Except Failure Data)
    (how : Settlement) : Steady s (s.finish owner outcome how) := by
  cases owner with
  | hello k => exact steady_decide s k outcome
  | request r =>
    have hlistener : Steady s (s.setRequest r { s.request r with listener := none }) :=
      ⟨rfl, rfl, rfl, rfl, rfl, fun _ h => h, fun _ _ _ h => h⟩
    exact hlistener.trans (steady_settle _ r how)

/-! ## Teardown -/

/-- The requests that have their place in a table. -/
def ownersOf (pending : List (Nat × Owner)) : List Nat :=
  pending.filterMap fun
    | (_, .request r) => some r
    | _ => none

theorem mem_ownersOf {pending : List (Nat × Owner)} :
    r ∈ ownersOf pending ↔ ∃ id, (id, Owner.request r) ∈ pending := by
  simp only [ownersOf, List.mem_filterMap]
  constructor
  · rintro ⟨⟨id, owner⟩, hmem, heq⟩
    cases owner with
    | hello k => cases heq
    | request r' =>
      cases heq
      exact ⟨id, hmem⟩
  · rintro ⟨id, hmem⟩
    exact ⟨_, hmem, rfl⟩

/-- **Everything a torn table held settles.** -/
theorem Inv.settleAll {failure : Failure} (pending : List (Nat × Owner))
    (h : Inv (ownersOf pending) s) (hempty : ∀ j, (s.table j).pending = [])
    (htorn : .torn i ∈ s.log)
    (howners : ∀ r ∈ ownersOf pending, r < s.requests ∧ ∃ id, .registered r i id ∈ s.log) :
    Inv [] (pending.foldl
      (fun s entry => s.finish entry.2 (.error failure) (.teardown i failure)) s) := by
  induction pending generalizing s with
  | nil => exact h
  | cons entry rest ih =>
    rw [List.foldl_cons]
    have hsteady := steady_finish s entry.2 (.error failure) (.teardown i failure)
    have hrest : ownersOf rest ⊆ ownersOf (entry :: rest) := by
      intro r hr
      obtain ⟨id, hid⟩ := mem_ownersOf.mp hr
      exact mem_ownersOf.mpr ⟨id, List.mem_cons_of_mem _ hid⟩
    apply ih
    · obtain ⟨id, owner⟩ := entry
      cases owner with
      | hello k => exact h.decide k _
      | request r =>
        obtain ⟨hr, id', hregistered⟩ := howners r (mem_ownersOf.mpr ⟨id, List.mem_cons_self⟩)
        have hlistener : Inv (r :: ownersOf rest)
            (s.setRequest r { s.request r with listener := none }) := h.setRequest rfl rfl
        refine hlistener.settle hr _ (fun _ => ⟨htorn, id', hregistered⟩) (.inr fun j id'' hmem => ?_)
        rw [show ((s.setRequest r _).table j).pending = [] from hempty j] at hmem
        cases hmem
    · rw [hsteady.table]
      exact hempty
    · exact hsteady.log htorn
    · intro r hr
      obtain ⟨hlt, id, hid⟩ := howners r (hrest hr)
      exact ⟨hsteady.requests ▸ hlt, id, hsteady.log hid⟩

theorem steady_settleAll (i : Nat) (failure : Failure) (pending : List (Nat × Owner)) (s : State) :
    Steady s (pending.foldl
      (fun s entry => s.finish entry.2 (.error failure) (.teardown i failure)) s) := by
  induction pending generalizing s with
  | nil => exact Steady.refl s
  | cons entry rest ih => exact (steady_finish s entry.2 _ _).trans (ih _)

theorem Inv.only_live (h : Inv loose s) {j : Nat} (hlive : (s.table i).live = true) (hj : j ≠ i)
    : (s.table j).live = false := by
  rw [Bool.eq_false_iff]
  intro hlive'
  have hsession := (h.sessions.current i).mp hlive
  rw [(h.sessions.current j).mp hlive'] at hsession
  exact hj (Option.some.inj hsession)

/-- The state of a connection whose session is torn down, before its requests hear of it. -/
def State.cutOff (s : State) (i : Nat) : State :=
  { (s.setSession i { s.table i with live := false, pending := [] }).note (.torn i) with
    session := none
    ready := none }

theorem Inv.cutOff_table (h : Inv loose s) (hlive : (s.table i).live = true) (j : Nat) :
    ((s.cutOff i).table j).live = false ∧ ((s.cutOff i).table j).pending = [] := by
  show (if j = i then _ else s.table j : Session).live = false ∧
    (if j = i then _ else s.table j : Session).pending = []
  split
  · exact ⟨rfl, rfl⟩
  · next hj => exact ⟨h.only_live hlive hj, h.sessions.dead j (h.only_live hlive hj)⟩

/-- **A session is cut off**: its requests have no place any more. -/
theorem Inv.cutOff (h : Inv [] s) (hlive : (s.table i).live = true) :
    Inv (ownersOf (s.table i).pending) (s.cutOff i) := by
  have hsession := (h.sessions.current i).mp hlive
  have hother (j : Nat) (hj : j ≠ i) := h.only_live hlive hj
  have htable := h.cutOff_table hlive
  have hlog : (s.cutOff i).log = s.log ++ [.torn i] := rfl
  refine ⟨h.lawful.snoc ((h.sessions.live i).mp hlive), ?_, ?_, ?_, ?_⟩
  · constructor
    case live =>
      intro j
      refine iff_of_false (by rw [(htable j).1]; decide) ?_
      rintro ⟨hspawned, htorn⟩
      rw [hlog, mem_note (by simp)] at hspawned
      have hj : j ≠ i := by
        rintro rfl
        exact htorn (List.mem_append_right _ (List.mem_singleton_self _))
      have hlive' := (h.sessions.live j).mpr
        ⟨hspawned, fun hx => htorn (List.mem_append_left _ hx)⟩
      rw [hother j hj] at hlive'
      cases hlive'
    case current =>
      intro j
      exact iff_of_false (by rw [(htable j).1]; decide) (by rintro ⟨⟩)
    case dead => exact fun j _ => (htable j).2
    case spawned =>
      intro j
      rw [hlog, mem_note (by simp)]
      exact h.sessions.spawned j
    case closed =>
      rw [hlog, mem_note (by simp)]
      exact h.sessions.closed
  · -- a start that waits for its command would be the one that is remembered
    obtain ⟨k, hready, hk⟩ := h.starts.remembered i hsession
    refine ⟨fun k' hk' => ?_, by rintro _ ⟨⟩, h.starts.note.failed, by rintro _ ⟨⟩⟩
    have hready' := h.starts.command k' hk'
    rw [hready] at hready'
    cases hready'
    rw [show s.start k = .command from hk'] at hk
    cases hk
  · refine ⟨fun j entry hmem => ?_, ?_, fun j id r hmem => ?_, fun j => ?_⟩
    · rw [(htable j).2] at hmem
      cases hmem
    · exact (h.tables.note (e := .torn i) (by simp)).registered
    · rw [(htable j).2] at hmem
      cases hmem
    · rw [(htable j).2]
      exact List.nodup_nil
  · have hnoted := h.requests.note (e := .torn i) (by simp) (by simp) (by simp) (by simp) (by simp)
    refine { hnoted with awaiting := ?_, place := ?_ }
    · exact fun r hr k hk => (hnoted.awaiting r hr k hk).imp_right (Or.imp_left fun hl => by cases hl)
    · intro r hr j id hs
      obtain ⟨hmem, hplace⟩ := hnoted.place r hr j id hs
      refine ⟨hmem, .inl ?_⟩
      obtain ⟨hlive', hpending, -⟩ := hplace.resolve_left List.not_mem_nil
      have hj : j = i := by
        by_contra hj
        rw [hother j hj] at hlive'
        cases hlive'
      exact mem_ownersOf.mpr ⟨id, hj ▸ hpending⟩

/-- What a teardown leaves as it is; the log only grows. -/
structure TornDown (s s' : State) : Prop where
  closed : s'.closed = s.closed
  sending : s'.sending = s.sending
  requests : s'.requests = s.requests
  log : s.log ⊆ s'.log
  decided : ∀ k i outcome, s.start k = .decided i outcome → s'.start k = .decided i outcome

/-- **A teardown** settles everything that waits for the session. -/
theorem Inv.teardown (h : Inv [] s) (i : Nat) (failure : Failure) :
    Inv [] (s.teardown i failure) ∧ TornDown s (s.teardown i failure) ∧
      (s.teardown i failure).session = if s.session = some i then none else s.session := by
  cases hlive : (s.table i).live with
  | false =>
    have hsame : s.teardown i failure = s := by
      unfold State.teardown
      rw [if_pos (by rw [hlive]; decide)]
    have hsession : s.session ≠ some i := fun hsession => by
      rw [(h.sessions.current i).mpr hsession] at hlive
      cases hlive
    rw [hsame, if_neg hsession]
    exact ⟨h, ⟨rfl, rfl, rfl, fun _ hx => hx, fun _ _ _ hk => hk⟩, rfl⟩
  | true =>
    have hsession := (h.sessions.current i).mp hlive
    have heq : s.teardown i failure = (s.table i).pending.foldl
        (fun s entry => s.finish entry.2 (.error failure) (.teardown i failure))
        (s.cutOff i) := by
      unfold State.teardown
      rw [if_neg (by rw [hlive]; decide)]
      show List.foldl _ (if s.session = some i then _ else _) _ = _
      rw [if_pos hsession]
      rfl
    have hsteady := steady_settleAll i failure (s.table i).pending (s.cutOff i)
    rw [← heq] at hsteady
    refine ⟨?_, ⟨hsteady.closed, hsteady.sending, hsteady.requests,
      fun _ hx => hsteady.log (List.mem_append_left _ hx), hsteady.decided⟩,
      by rw [if_pos hsession]; exact hsteady.session⟩
    rw [heq]
    refine (h.cutOff hlive).settleAll _ (fun j => (h.cutOff_table hlive j).2) ?_ ?_
    · exact List.mem_append_right _ (List.mem_singleton_self _)
    · intro r hr
      obtain ⟨id, hid⟩ := mem_ownersOf.mp hr
      have hregistered := (h.tables.pending i id r hid).1
      exact ⟨h.requests.known r (.inl fun hun => hun i id hregistered), id,
        List.mem_append_left _ hregistered⟩

end ThreeXhaust.Env.Connection
