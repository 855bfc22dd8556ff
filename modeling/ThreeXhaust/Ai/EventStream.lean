import ThreeXhaust.Lib.Run

/-!
# Event streams

`ai/src/utils/event-stream.ts`: a producer pushes the events of a response, and iterators ask for the
next one. Both an event nobody asked for and a call without an event wait in a queue of two stacks.

An iterator is an asynchronous generator, which keeps a second call to itself until the promise of the
first has settled. A `next` here is a call that reaches the stream, so that an iterator has one open call
at most (`OneCall`), as one that a `for await` drives.

Calls of `next` have numbers. What was accepted and what the calls got is noted, and read by nothing;
a call that gets `none` is told that the stream is done.

* **`stream_delivers`** — the events that were accepted are handed out in their order.
-/

namespace ThreeXhaust.Ai

/-- Two stacks, the top of each in front. -/
structure FifoQueue (T : Type) where
  incoming : List T
  outgoing : List T

namespace FifoQueue

variable {T : Type}

def enqueue (q : FifoQueue T) (value : T) : FifoQueue T := { q with incoming := value :: q.incoming }

def dequeue (q : FifoQueue T) : Option T × FifoQueue T :=
  let q := if q.outgoing.isEmpty then ⟨[], q.incoming.reverse⟩ else q
  match q.outgoing with
  | [] => (none, q)
  | value :: outgoing => (some value, { q with outgoing })

/-- The queue that the stacks stand for. -/
def items (q : FifoQueue T) : List T := q.outgoing ++ q.incoming.reverse

@[simp] theorem items_enqueue (q : FifoQueue T) (value : T) :
    (q.enqueue value).items = q.items ++ [value] := by
  simp [items, enqueue]

theorem items_dequeue (q : FifoQueue T) :
    (q.dequeue.1 = none ∧ q.items = []) ∨
      ∃ value, q.dequeue.1 = some value ∧ q.items = value :: q.dequeue.2.items := by
  obtain ⟨incoming, outgoing⟩ := q
  cases outgoing with
  | cons value outgoing => exact .inr ⟨value, rfl, rfl⟩
  | nil =>
    -- the incoming stack is turned over
    simp only [dequeue, items, List.isEmpty_nil, if_true, List.nil_append]
    cases incoming.reverse with
    | nil => exact .inl ⟨rfl, rfl⟩
    | cons value rest => exact .inr ⟨value, rfl, (List.append_nil _).symm⟩

end FifoQueue

structure EventStream (T R : Type) where
  queue : FifoQueue T
  waiting : FifoQueue Nat
  done : Bool
  result : Option R
  /-- The iterator of each call. -/
  callers : List Nat
  /-- The iterators with an open call. -/
  running : List Nat
  accepted : List T
  answers : List (Nat × Option T)

inductive StreamInput (T R : Type) where
  | push (event : T)
  | finish (result : Option R)
  | next (iterator : Nat)
  /-- The promise of the iterator's open call settles. -/
  | settle (iterator : Nat)

namespace EventStream

variable {T R : Type} (isComplete : T → Bool) (extractResult : T → R)

def init : EventStream T R := ⟨⟨[], []⟩, ⟨[], []⟩, false, none, [], [], [], []⟩

def answer (s : EventStream T R) (call : Nat) (event : Option T) : EventStream T R :=
  { s with answers := s.answers ++ [(call, event)] }

def push (s : EventStream T R) (event : T) : EventStream T R :=
  if s.done then s
  else
    let s := { s with
      done := isComplete event
      result := if isComplete event then some (extractResult event) else s.result
      accepted := s.accepted ++ [event] }
    match s.waiting.dequeue with
    | (some call, waiting) => { s with waiting }.answer call (some event)
    | (none, _) => { s with queue := s.queue.enqueue event }

/-- `end`: a promise that is resolved stays so, and all who wait are told. -/
def finish (s : EventStream T R) (result : Option R) : EventStream T R :=
  { s with
    done := true
    result := s.result.or result
    waiting := ⟨[], []⟩
    answers := s.answers ++ s.waiting.items.map (·, none) }

def next (s : EventStream T R) (iterator : Nat) : EventStream T R :=
  let call := s.callers.length
  let s := { s with callers := s.callers ++ [iterator], running := iterator :: s.running }
  match s.queue.dequeue with
  | (some event, queue) => { s with queue }.answer call (some event)
  | (none, _) =>
    if s.done then s.answer call none else { s with waiting := s.waiting.enqueue call }

def step (s : EventStream T R) : StreamInput T R → EventStream T R
  | .push event => s.push isComplete extractResult event
  | .finish result => s.finish result
  | .next iterator => s.next iterator
  | .settle iterator => { s with running := s.running.erase iterator }

/-- An iterator has one open call at most, and one whose call waits is not settled. -/
def OneCall (s : EventStream T R) : StreamInput T R → Prop
  | .next iterator => iterator ∉ s.running
  | .settle iterator => ∀ call ∈ s.waiting.items, s.callers[call]? ≠ some iterator
  | _ => True

instance (s : EventStream T R) (input : StreamInput T R) : Decidable (s.OneCall input) := by
  unfold OneCall
  split <;> infer_instance

def events (s : EventStream T R) : List T := s.answers.filterMap (·.2)

/-- The calls that got an event. -/
def served (s : EventStream T R) : List Nat := s.answers.filterMap fun a => a.2.map fun _ => a.1

structure Kept (s : EventStream T R) : Prop where
  delivers : s.events ++ s.queue.items = s.accepted
  inOrder : (s.served ++ s.waiting.items).Pairwise (· < ·)
  calls : ∀ call ∈ s.served ++ s.waiting.items, call < s.callers.length
  one : s.queue.items = [] ∨ s.waiting.items = []
  completes : ∀ e ∈ s.accepted, isComplete e →
    s.done = true ∧ s.accepted.getLast? = some e ∧ s.result = some (extractResult e)

variable {isComplete extractResult}

theorem events_answer (s : EventStream T R) (call : Nat) (event : Option T) :
    (s.answer call event).events = s.events ++ event.toList := by
  cases event <;> simp [answer, events]

theorem served_answer (s : EventStream T R) (call : Nat) (event : T) :
    (s.answer call (some event)).served = s.served ++ [call] := by
  simp [answer, served]

theorem pairwise_concat {calls : List Nat} {n : Nat} (h : calls.Pairwise (· < ·))
    (hn : ∀ call ∈ calls, call < n) : (calls ++ [n]).Pairwise (· < ·) :=
  List.pairwise_append.mpr ⟨h, List.pairwise_singleton _ _, by simpa using hn⟩

variable {s : EventStream T R}

theorem Kept.finish (h : s.Kept isComplete extractResult) (result : Option R) :
    (s.finish result).Kept isComplete extractResult := by
  have hevents : (s.finish result).events = s.events := by
    simp [EventStream.finish, events]
  have hserved : (s.finish result).served = s.served := by
    simp [EventStream.finish, served]
  have hsublist : (s.served ++ []).Sublist (s.served ++ s.waiting.items) :=
    (List.nil_sublist _).append_left _
  refine ⟨hevents ▸ h.delivers, hserved ▸ h.inOrder.sublist hsublist, fun call hcall => ?_, .inr rfl,
    fun e he hcomplete => ?_⟩
  · rw [hserved] at hcall
    exact h.calls call (hsublist.subset hcall)
  · obtain ⟨-, hlast, hresult⟩ := h.completes e he hcomplete
    exact ⟨rfl, hlast, congrArg (·.or result) hresult⟩

/-- The next call asks behind all others. -/
theorem Kept.later (h : s.Kept isComplete extractResult) :
    (s.served ++ s.waiting.items ++ [s.callers.length]).Pairwise (· < ·) ∧
      ∀ call ∈ s.served ++ s.waiting.items ++ [s.callers.length], call < s.callers.length + 1 := by
  refine ⟨pairwise_concat h.inOrder h.calls, fun call hcall => ?_⟩
  rcases List.mem_append.mp hcall with hcall | hcall
  · exact Nat.lt_succ_of_lt (h.calls call hcall)
  · exact List.mem_singleton.mp hcall ▸ Nat.lt_succ_self _

theorem Kept.next (h : s.Kept isComplete extractResult) (iterator : Nat) :
    (s.next iterator).Kept isComplete extractResult := by
  obtain ⟨hlater, hbound⟩ := h.later
  have hlength : (s.callers ++ [iterator]).length = s.callers.length + 1 := List.length_append
  rw [← hlength] at hbound
  have hdelivers := h.delivers
  unfold EventStream.next
  dsimp only
  rcases hdequeue : s.queue.dequeue with ⟨_ | event, queue⟩
  · have hitems : s.queue.items = [] := by
      simpa [hdequeue] using s.queue.items_dequeue
    dsimp only
    split
    · refine ⟨?_, ?_, fun call hcall => hbound call ?_, h.one, h.completes⟩
      · simpa [answer, events] using hdelivers
      · simpa [answer, served] using h.inOrder
      · exact List.mem_append_left _ (by simpa [answer, served] using hcall)
    · refine ⟨hdelivers, ?_, ?_, .inl hitems, h.completes⟩
      · simpa [served] using hlater
      · simpa [served] using hbound
  · have hitems : s.queue.items = event :: queue.items := by
      simpa [hdequeue] using s.queue.items_dequeue
    have hnobody : s.waiting.items = [] := h.one.resolve_left (by simp [hitems])
    rw [hnobody, List.append_nil] at hlater hbound
    refine ⟨?_, ?_, ?_, .inr hnobody, h.completes⟩
    · rw [events_answer]
      simpa [answer, hitems, events] using hdelivers
    · rw [served_answer]
      simpa [answer, hnobody, served] using hlater
    · rw [served_answer]
      simpa [answer, hnobody, served] using hbound

theorem Kept.push (h : s.Kept isComplete extractResult) (event : T) :
    (s.push isComplete extractResult event).Kept isComplete extractResult := by
  have hdelivers := h.delivers
  have hinOrder := h.inOrder
  have hcalls := h.calls
  unfold EventStream.push
  split
  · exact h
  · next hopen =>
    -- as long as the stream is open, nothing that was accepted completes it
    have hcompletes (e : T) (he : e ∈ s.accepted ++ [event]) (hcomplete : isComplete e) :
        isComplete event = true ∧ (s.accepted ++ [event]).getLast? = some e ∧
          (if isComplete event then some (extractResult event) else s.result)
            = some (extractResult e) := by
      rcases List.mem_append.mp he with he | he
      · exact absurd (h.completes e he hcomplete).1 hopen
      · rw [List.mem_singleton.mp he] at hcomplete ⊢
        simp [hcomplete]
    dsimp only
    rcases hdequeue : s.waiting.dequeue with ⟨_ | call, waiting⟩
    · have hnobody : s.waiting.items = [] := by
        simpa [hdequeue] using s.waiting.items_dequeue
      refine ⟨?_, hinOrder, hcalls, .inr hnobody, hcompletes⟩
      show s.events ++ (s.queue.enqueue event).items = s.accepted ++ [event]
      rw [FifoQueue.items_enqueue, ← hdelivers, List.append_assoc]
    · have hitems : s.waiting.items = call :: waiting.items := by
        simpa [hdequeue] using s.waiting.items_dequeue
      have hempty : s.queue.items = [] := h.one.resolve_right (by simp [hitems])
      rw [hitems] at hinOrder hcalls
      rw [hempty, List.append_nil] at hdelivers
      refine ⟨?_, ?_, ?_, .inl hempty, hcompletes⟩
      · rw [events_answer]
        simpa [answer, hempty, events] using hdelivers
      · rw [served_answer]
        simpa [answer, served] using hinOrder
      · rw [served_answer]
        simpa [answer, served] using hcalls

/-- **A stream delivers what it accepts**: after any pushes, ends and calls of `next`, one open call an
iterator, the events that were handed out and those that are queued are those that were accepted, in
their order; the calls got theirs in the order they asked in, and no event is queued while one waits. An
event that completes the stream is the last one accepted, and the result is its own. -/
theorem stream_delivers {s : EventStream T R}
    (h : Run.Reachable (step isComplete extractResult) OneCall init s) :
    s.events ++ s.queue.items = s.accepted ∧ (s.served ++ s.waiting.items).Pairwise (· < ·) ∧
      (s.queue.items = [] ∨ s.waiting.items = []) ∧ ∀ e ∈ s.accepted, isComplete e →
        s.done = true ∧ s.accepted.getLast? = some e ∧ s.result = some (extractResult e) := by
  have hkept : s.Kept isComplete extractResult := by
    refine h.invariant (·.Kept isComplete extractResult) ?_ fun s input hs _ => ?_
    · constructor <;> simp [init, events, served, FifoQueue.items]
    · cases input with
      | push event => exact hs.push event
      | finish result => exact hs.finish result
      | next iterator => exact hs.next iterator
      | settle iterator => exact { hs with }
  exact ⟨hkept.delivers, hkept.inOrder, hkept.one, hkept.completes⟩

/-- Two iterators ask before there is an event, and the first asks again for the last one. -/
def twoIterators : List (StreamInput Nat Nat) :=
  [.next 0, .next 1, .push 1, .push 2, .settle 0, .push 3, .next 0, .push 4]

theorem stream_delivers_last :
    let s := twoIterators.foldl (step (· == 3) id) init
    s.answers = [(0, some 1), (1, some 2), (2, some 3)] ∧ s.result = some 3 ∧
      s.events ++ s.queue.items = s.accepted := by
  intro s
  exact ⟨rfl, rfl, (stream_delivers (Run.reachable_foldl .init (by decide))).1⟩

end EventStream

end ThreeXhaust.Ai
