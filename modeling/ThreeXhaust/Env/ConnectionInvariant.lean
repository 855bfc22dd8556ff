import ThreeXhaust.Env.Connection
import ThreeXhaust.Lib.Log

/-!
# The invariant of a connection

What the log of a run says. `Allowed` is the rule for one entry and its past: a session is spawned
when the ones before it are torn down, bytes go to live sessions, and a request settles once, with
what its settlement says. `Inv` ties the fields of the connection to its log: the session that is
live is the one that is current, a table that is torn down is empty, and a request that has not
settled waits for a start or has its place in the table of the live session.

In the middle of a step some requests have lost their place and have not settled: these are
`loose`.
-/

namespace ThreeXhaust.Env.Connection

/-! ## What a log says -/

def IsReply (m : Message) : Prop := m.type = RESULT ∨ m.type = ERROR

def Live (log : List Entry) (i : Nat) : Prop := .spawned i ∈ log ∧ .torn i ∉ log

/-- The request is written to the session, and no reply with its id has come since. -/
def Waiting (log : List Entry) (r i id : Nat) : Prop :=
  ∃ front bytes back, log = front ++ .wrote i (.request r id) bytes :: back ∧
    ∀ m, .received i m ∈ back → IsReply m → m.id ≠ id

def Unregistered (log : List Entry) (r : Nat) : Prop := ∀ i id, .registered r i id ∉ log

def Unsettled (log : List Entry) (r : Nat) : Prop := ∀ how, .settled r how ∉ log

def Deserved (before : List Entry) (r : Nat) : Settlement → Prop
  | .reply i m => ∃ past, before = past ++ [.received i m] ∧ Waiting past r i m.id ∧
      IsReply m
  | .teardown i _ => .torn i ∈ before ∧ ∃ id, .registered r i id ∈ before
  | .start k _ _ => .startFailed k ∈ before ∧ Unregistered before r
  | .notLive i => ¬ Live before i ∧ Unregistered before r
  | .closed => .closed ∈ before ∧ Unregistered before r
  | .threw => (∃ i id, .registered r i id ∈ before) ∧
      ∀ i id bytes, .wrote i (.request r id) bytes ∉ before

/-- What must have happened before an entry. -/
def Allowed (before : List Entry) : Entry → Prop
  | .requested r _ => ∀ bound, .requested r bound ∉ before
  | .spawned i => .closed ∉ before ∧ .spawned i ∉ before ∧ ∀ j, ¬ Live before j
  | .torn i => Live before i
  | .received i _ => Live before i
  | .registered r i id => Live before i ∧
      (∃ bound, .requested r bound ∈ before ∧ (bound = none ∨ bound = some i)) ∧
      Unregistered before r ∧ Unsettled before r ∧ ∀ r' j, .registered r' j id ∉ before
  | .wrote i what _ => .closed ∉ before ∧ Live before i ∧
      ∀ r id, what = .request r id → .registered r i id ∈ before ∧ Unsettled before r
  | .event r i m => m.type = EVENT ∧ (∃ past, before = past ++ [.received i m]) ∧
      .registered r i m.id ∈ before ∧ ∀ how, .settled r how ∈ before → how = .threw
  | .settled r how => Unsettled before r ∧ Deserved before r how
  | _ => True

/-! ## The invariant -/

/-- Sessions: the live one is the current one, and a table that was torn down is empty. -/
structure Sessions (log : List Entry) (table : Nat → Session) (session : Option Nat)
    (sessions : Nat) (closed : Bool) : Prop where
  live : ∀ i, (table i).live = true ↔ Live log i
  current : ∀ i, (table i).live = true ↔ session = some i
  dead : ∀ i, (table i).live = false → (table i).pending = []
  spawned : ∀ i, .spawned i ∈ log → i ≤ sessions
  closed : closed = true ↔ .closed ∈ log

inductive Has : Start → Nat → Prop where
  | hello (i : Nat) : Has (.hello i) i
  | decided (i : Nat) (outcome : Except Failure Data) : Has (.decided i outcome) i
  | ready (i : Nat) : Has (.ready i) i

/-- Starts: one that waits for its command is the one that is remembered, and so is the one of the
current session. -/
structure Starts (log : List Entry) (start : Nat → Start) (starts : Nat)
    (ready session : Option Nat) : Prop where
  command : ∀ k, start k = .command → ready = some k
  remembered : ∀ i, session = some i → ∃ k, ready = some k ∧ Has (start k) i
  failed : ∀ k < starts, ∀ failure stderr, start k = .failed failure stderr → .startFailed k ∈ log
  ready : ∀ k, ready = some k → k < starts

/-- Tables: every id was given out once, to a request that has not settled. -/
structure Tables (log : List Entry) (table : Nat → Session) (request : Nat → Request)
    (nextId : Nat) : Prop where
  ids : ∀ i, ∀ entry ∈ (table i).pending, entry.1 < nextId
  registered : ∀ r i id, .registered r i id ∈ log → id < nextId
  pending : ∀ i id r, (id, Owner.request r) ∈ (table i).pending →
    .registered r i id ∈ log ∧ ((request r).status = .registered i id ∨ .settled r .threw ∈ log)
  keys : ∀ i, ((table i).pending.map Prod.fst).Nodup

def InPlace (log : List Entry) (table : Nat → Session) (sending : List Nat) (r i id : Nat) : Prop :=
  (table i).live = true ∧ (id, Owner.request r) ∈ (table i).pending ∧
    (r ∈ sending ∨ Waiting log r i id)

/-- Requests: each has settled, waits for a start, or has its place in the live session. -/
structure Requests (loose : List Nat) (log : List Entry) (table : Nat → Session)
    (request : Nat → Request) (requests starts : Nat) (sending : List Nat) : Prop where
  requested : ∀ r, (∃ bound, .requested r bound ∈ log) ↔ r < requests
  beyond : ∀ r, requests ≤ r → (request r).status = .settled
  bound : ∀ r < requests, .requested r (request r).ask.session ∈ log
  known : ∀ r, ¬ Unregistered log r ∨ ¬ Unsettled log r → r < requests
  settled : ∀ r < requests, (request r).status = .settled ↔ ¬ Unsettled log r
  awaiting : ∀ r < requests, ∀ k, (request r).status = .awaiting k → Unregistered log r ∧
    (r ∈ loose ∨ (k < starts ∧ (request r).ask.session = none))
  place : ∀ r < requests, ∀ i id, (request r).status = .registered i id →
    .registered r i id ∈ log ∧ (r ∈ loose ∨ InPlace log table sending r i id)
  nodup : sending.Nodup
  sending : ∀ r ∈ sending, ¬ Unregistered log r ∧
    ∀ i id bytes, .wrote i (.request r id) bytes ∉ log

structure Inv (loose : List Nat) (s : State) : Prop where
  lawful : Lawful Allowed s.log
  sessions : Sessions s.log s.table s.session s.sessions s.closed
  starts : Starts s.log s.start s.starts s.ready s.session
  tables : Tables s.log s.table s.request s.nextId
  requests : Requests loose s.log s.table s.request s.requests s.starts s.sending

/-- Between two steps nothing is loose, and a closed connection has no session. -/
structure Sound (s : State) : Prop extends Inv [] s where
  ended : s.closed = true → s.session = none

variable {loose : List Nat} {s : State} {e : Entry} {log : List Entry}

/-! ## A longer log -/

theorem mem_note {x : Entry} (h : x ≠ e) : x ∈ log ++ [e] ↔ x ∈ log := by
  rw [List.mem_append, List.mem_singleton]
  exact ⟨fun hx => hx.resolve_right h, .inl⟩

theorem live_note {i : Nat} (hspawned : e ≠ .spawned i) (htorn : e ≠ .torn i) :
    Live (log ++ [e]) i ↔ Live log i := by
  rw [Live, Live, mem_note hspawned.symm, mem_note htorn.symm]

theorem Waiting.note {r i id : Nat} (h : Waiting log r i id)
    (he : ∀ m, e = .received i m → IsReply m → m.id ≠ id) : Waiting (log ++ [e]) r i id := by
  obtain ⟨front, bytes, back, rfl, hback⟩ := h
  refine ⟨front, bytes, back ++ [e], by rw [List.append_assoc, List.cons_append], ?_⟩
  intro m hm hreply
  rcases List.mem_append.mp hm with hm | hm
  · exact hback m hm hreply
  · exact he m (List.mem_singleton.mp hm).symm hreply

variable {table : Nat → Session}

theorem Sessions.note {session : Option Nat} {sessions : Nat} {closed : Bool}
    (h : Sessions log table session sessions closed) (hspawned : ∀ i, e ≠ .spawned i)
    (htorn : ∀ i, e ≠ .torn i) (hclosed : e ≠ .closed) :
    Sessions (log ++ [e]) table session sessions closed where
  live i := by rw [live_note (hspawned i) (htorn i), h.live]
  current := h.current
  dead := h.dead
  spawned i := by
    rw [mem_note (hspawned i).symm]
    exact h.spawned i
  closed := by rw [mem_note hclosed.symm, h.closed]

theorem Starts.note {start : Nat → Start} {starts : Nat} {ready session : Option Nat}
    (h : Starts log start starts ready session) : Starts (log ++ [e]) start starts ready session where
  command := h.command
  remembered := h.remembered
  failed k hk failure stderr hf := List.mem_append_left _ (h.failed k hk failure stderr hf)
  ready := h.ready

theorem Tables.note {request : Nat → Request} {nextId : Nat} (h : Tables log table request nextId)
    (hregistered : ∀ r i id, e ≠ .registered r i id) :
    Tables (log ++ [e]) table request nextId where
  ids := h.ids
  registered r i id := by
    rw [mem_note (hregistered r i id).symm]
    exact h.registered r i id
  pending i id r hp := by
    obtain ⟨hlog, hstatus⟩ := h.pending i id r hp
    exact ⟨List.mem_append_left _ hlog, hstatus.imp_right (List.mem_append_left _)⟩
  keys := h.keys

theorem Requests.note {request : Nat → Request} {requests starts : Nat} {sending : List Nat}
    (h : Requests loose log table request requests starts sending)
    (hrequested : ∀ r bound, e ≠ .requested r bound)
    (hregistered : ∀ r i id, e ≠ .registered r i id) (hsettled : ∀ r how, e ≠ .settled r how)
    (hreply : ∀ i m r, e = .received i m → IsReply m → (m.id, Owner.request r) ∈ (table i).pending →
      r ∈ loose) (hwrote : ∀ i r id bytes, e = .wrote i (.request r id) bytes → r ∉ sending) :
    Requests loose (log ++ [e]) table request requests starts sending := by
  have hun (r : Nat) : Unregistered (log ++ [e]) r ↔ Unregistered log r := by
    simp only [Unregistered, mem_note (hregistered _ _ _).symm]
  have hset (r : Nat) : Unsettled (log ++ [e]) r ↔ Unsettled log r := by
    simp only [Unsettled, mem_note (hsettled _ _).symm]
  constructor
  case requested => simpa only [mem_note (hrequested _ _).symm] using h.requested
  case beyond => exact h.beyond
  case bound => simpa only [mem_note (hrequested _ _).symm] using h.bound
  case known => simpa only [hun, hset] using h.known
  case settled => simpa only [hset] using h.settled
  case awaiting => simpa only [hun] using h.awaiting
  case place =>
    intro r hr i id hstatus
    obtain ⟨hlog, hplace⟩ := h.place r hr i id hstatus
    refine ⟨List.mem_append_left _ hlog, ?_⟩
    by_cases hloose : r ∈ loose
    · exact .inl hloose
    · obtain ⟨hlive, hpending, hwait⟩ := hplace.resolve_left hloose
      refine .inr ⟨hlive, hpending, hwait.imp_right fun hwait => hwait.note ?_⟩
      rintro m hm hrep rfl
      exact hloose (hreply i m r hm hrep hpending)
  case nodup => exact h.nodup
  case sending =>
    intro r hr
    obtain ⟨hregistered, hunwritten⟩ := h.sending r hr
    refine ⟨(hun r).not.mpr hregistered, fun i id bytes hmem => ?_⟩
    rcases List.mem_append.mp hmem with hmem | hmem
    · exact hunwritten i id bytes hmem
    · exact hwrote i r id bytes (List.mem_singleton.mp hmem).symm hr

end ThreeXhaust.Env.Connection
