import ThreeXhaust.Env.Window
import Mathlib.Algebra.GroupWithZero.Nat

/-!
# From the daemon's window to the caller's tail

Text is pushed to the daemon's `Pending`, each `take` delivers events, and the caller pushes an
event's text and skip to a tail `OutputBuffer` with the same limits, of which it takes snapshots at
any time. The two trim by rules of their own; both leave text out only in front of more than the
window, so the buffer stands for the complete text delivered (`Inv`).
-/

namespace ThreeXhaust.Env

open Chord.Output

inductive Move where
  | push (stream : String) (text : List Char)
  | take
  | snapshot

structure Tail where
  pending : Pending
  buffer : OutputBuffer
  /-- The events delivered so far. -/
  events : List Event

namespace Tail

def new (w : Window) : Tail := ⟨.new w, .new w.limits, []⟩

def feed (buffer : OutputBuffer) (events : List Event) : Option OutputBuffer :=
  events.foldlM (fun buffer event => buffer.push event.text event.skipped) buffer

def step (t : Tail) : Move → Option Tail
  | .push stream text => (t.pending.push stream text).map fun pending => { t with pending }
  | .take =>
    let (events, pending) := t.pending.take
    (feed t.buffer events).map fun buffer => ⟨pending, buffer, t.events ++ events⟩
  | .snapshot => t.buffer.snapshot.map fun (_, buffer) => { t with buffer }

def run (t : Tail) (moves : List Move) : Option Tail := moves.foldlM step t

end Tail

def pushed : List Move → List Char
  | [] => []
  | .push _ text :: rest => text ++ pushed rest
  | .take :: rest => pushed rest
  | .snapshot :: rest => pushed rest

def Event.bytes (e : Event) : Nat :=
  textLen e.text + (e.skipped.map OutputSkip.bytes).getD 0

def Event.newlines (e : Event) : Nat :=
  newlineCount e.text + (e.skipped.map OutputSkip.newlines).getD 0

/-- The events deliver or skip exactly `text`, and skip only in front of more than the window. -/
structure Delivers (w : Window) (text : List Char) (events : List Event) : Prop where
  bytes : (events.map Event.bytes).sum = textLen text
  newlines : (events.map Event.newlines).sum = newlineCount text
  proves : ∀ event ∈ events, event.skipped ≠ none → Proves w.limits event.text

theorem Delivers.append {w : Window} {text text' : List Char} {events events' : List Event}
    (h : Delivers w text events) (h' : Delivers w text' events') :
    Delivers w (text ++ text') (events ++ events') where
  bytes := by rw [List.map_append, List.sum_append, h.bytes, h'.bytes, textLen_append]
  newlines := by rw [List.map_append, List.sum_append, h.newlines, h'.newlines, newlineCount_append]
  proves := by
    intro event hevent
    rcases List.mem_append.mp hevent with hevent | hevent
    · exact h.proves event hevent
    · exact h'.proves event hevent

theorem feed_segments {w : Window} {total : List Char} {b : OutputBuffer}
    (h : Holds w.limits total b) (segments : List (String × List Char)) :
    ∃ b', Tail.feed b (segments.map fun (stream, text) => ⟨stream, text, none⟩) = some b' ∧
      Holds w.limits (total ++ held segments) b' ∧
      Delivers w (held segments) (segments.map fun (stream, text) => ⟨stream, text, none⟩) := by
  induction segments generalizing total b with
  | nil =>
    refine ⟨b, rfl, ?_, rfl, rfl, ?_⟩
    · show Holds w.limits (total ++ []) b
      rw [List.append_nil]
      exact h
    · intro event hevent
      cases hevent
  | cons first rest ih =>
    obtain ⟨b', hrun, hholds, hdelivers⟩ := ih (h.accept rfl first.2)
    refine ⟨b', ?_, ?_, ?_⟩
    · rw [Tail.feed, List.map_cons, List.foldlM_cons]
      exact hrun
    · rw [held_cons, ← List.append_assoc]
      exact hholds
    · have hfirst : Delivers w first.2 [⟨first.1, first.2, none⟩] := by
        refine ⟨rfl, rfl, ?_⟩
        intro event hevent hskipped
        obtain rfl := List.mem_singleton.mp hevent
        exact absurd rfl hskipped
      rw [held_cons]
      exact hfirst.append hdelivers

/-- **A take** delivers what is owed: the buffer stands for the text with it. -/
theorem feed_take {w : Window} {total owed : List Char} {p : Pending} {b : OutputBuffer}
    (h : Holds w.limits total b) (hp : Keeps w owed p) :
    ∃ b', Tail.feed b p.take.1 = some b' ∧ Holds w.limits (total ++ owed) b' ∧
      Delivers w owed p.take.1 := by
  obtain ⟨omitted, howed, ⟨hnone, hskipped⟩ | ⟨homitted, hskipped, hproves⟩⟩ := hp.omitted
  · rw [Pending.take, hskipped, howed, hnone, List.nil_append]
    exact feed_segments h p.segments
  · -- one event behind the counts
    obtain ⟨b', hpush, hholds⟩ := h.skip rfl homitted hproves
    rw [Pending.take, hskipped, howed]
    have hskip : (⟨textLen omitted, newlineCount omitted,
        Chord.Output.endsWithNewline omitted⟩ : OutputSkip) = OutputSkip.of omitted := by
      rw [OutputSkip.of, newlineCount, count_newline]
      rfl
    refine ⟨b', ?_, by rw [← List.append_assoc]; exact hholds, ?_, ?_, ?_⟩
    · simp only [Tail.feed, List.foldlM_cons, List.foldlM_nil, Skipped.of, hskip]
      show (b.push (held p.segments) (some (OutputSkip.of omitted))).bind _ = _
      rw [hpush]
      rfl
    · rw [textLen_append, Nat.add_comm]
      rfl
    · rw [newlineCount_append, Nat.add_comm]
      rfl
    · intro event hevent _
      obtain rfl := List.mem_singleton.mp hevent
      exact hproves

theorem keeps_take {w : Window} {owed : List Char} {p : Pending} (h : Keeps w owed p) :
    Keeps w [] p.take.2 :=
  ⟨h.window_eq, rfl, rfl, fun _ hs => absurd hs List.not_mem_nil, [], rfl, Or.inl ⟨rfl, rfl⟩⟩

/-! ## Runs -/

/-- After `delivered` was taken and `owed` pushed since. -/
structure Inv (w : Window) (delivered owed : List Char) (t : Tail) : Prop where
  holds : Holds w.limits delivered t.buffer
  keeps : Keeps w owed t.pending
  delivers : Delivers w delivered t.events

section Runs

variable {w : Window} {delivered owed : List Char} {t : Tail}

theorem Inv.new (w : Window) : Inv w [] [] (.new w) :=
  ⟨Holds.new w.limits, Keeps.new w, rfl, rfl, fun _ he => absurd he List.not_mem_nil⟩

theorem Inv.push (h : Inv w delivered owed t) (stream : String) (text : List Char) :
    ∃ t', t.step (.push stream text) = some t' ∧ Inv w delivered (owed ++ text) t' := by
  obtain ⟨p, hpush, hkeeps⟩ := h.keeps.push stream text
  exact ⟨{ t with pending := p }, by rw [Tail.step, hpush]; rfl, h.holds, hkeeps, h.delivers⟩

theorem Inv.take (h : Inv w delivered owed t) :
    ∃ t', t.step .take = some t' ∧ Inv w (delivered ++ owed) [] t' := by
  obtain ⟨b, hfeed, hholds, hdelivers⟩ := feed_take h.holds h.keeps
  refine ⟨⟨t.pending.take.2, b, t.events ++ t.pending.take.1⟩, ?_, hholds, keeps_take h.keeps,
    h.delivers.append hdelivers⟩
  show (Tail.feed t.buffer t.pending.take.1).map _ = _
  rw [hfeed]
  rfl

theorem Inv.snapshot (h : Inv w delivered owed t) :
    ∃ t', t.step .snapshot = some t' ∧ Inv w delivered owed t' := by
  obtain ⟨out, b, hsnapshot, -, hholds⟩ := h.holds.snapshot rfl
  exact ⟨{ t with buffer := b }, by rw [Tail.step, hsnapshot]; rfl, hholds, h.keeps, h.delivers⟩

/-- **Any run**: what was pushed is delivered or owed. -/
theorem Inv.run (moves : List Move) (h : Inv w delivered owed t) :
    ∃ t' delivered' owed', t.run moves = some t' ∧ Inv w delivered' owed' t' ∧
      delivered' ++ owed' = delivered ++ owed ++ pushed moves := by
  induction moves generalizing t delivered owed with
  | nil => exact ⟨t, delivered, owed, rfl, h, (List.append_nil _).symm⟩
  | cons move rest ih =>
    cases move with
    | push stream text =>
      obtain ⟨t₁, hstep, h₁⟩ := h.push stream text
      obtain ⟨t₂, delivered', owed', hrun, h₂, hall⟩ := ih h₁
      refine ⟨t₂, delivered', owed', ?_, h₂, ?_⟩
      · rw [Tail.run, List.foldlM_cons, hstep]
        exact hrun
      · rw [hall, pushed]
        simp only [List.append_assoc]
    | take =>
      obtain ⟨t₁, hstep, h₁⟩ := h.take
      obtain ⟨t₂, delivered', owed', hrun, h₂, hall⟩ := ih h₁
      refine ⟨t₂, delivered', owed', ?_, h₂, ?_⟩
      · rw [Tail.run, List.foldlM_cons, hstep]
        exact hrun
      · rw [hall, pushed, List.append_nil]
    | snapshot =>
      obtain ⟨t₁, hstep, h₁⟩ := h.snapshot
      obtain ⟨t₂, delivered', owed', hrun, h₂, hall⟩ := ih h₁
      refine ⟨t₂, delivered', owed', ?_, h₂, ?_⟩
      · rw [Tail.run, List.foldlM_cons, hstep]
        exact hrun
      · rw [hall, pushed]

theorem Inv.later (moves : List Move) (hmoves : Move.take ∉ moves)
    (h : Inv w delivered owed t) :
    ∃ t' owed', t.run moves = some t' ∧ Inv w delivered owed' t' := by
  induction moves generalizing t owed with
  | nil => exact ⟨t, owed, rfl, h⟩
  | cons move rest ih =>
    have hrest : Move.take ∉ rest := fun hmem => hmoves (List.mem_cons_of_mem _ hmem)
    cases move with
    | push stream text =>
      obtain ⟨t₁, hstep, h₁⟩ := h.push stream text
      obtain ⟨t₂, owed', hrun, h₂⟩ := ih hrest h₁
      refine ⟨t₂, owed', ?_, h₂⟩
      rw [Tail.run, List.foldlM_cons, hstep]
      exact hrun
    | take => exact absurd List.mem_cons_self hmoves
    | snapshot =>
      obtain ⟨t₁, hstep, h₁⟩ := h.snapshot
      obtain ⟨t₂, owed', hrun, h₂⟩ := ih hrest h₁
      refine ⟨t₂, owed', ?_, h₂⟩
      rw [Tail.run, List.foldlM_cons, hstep]
      exact hrun

end Runs

theorem holds_texts {limits : OutputLimits} (htail : limits.retain = .tail)
    (texts : List (List Char)) {total : List Char} {b : OutputBuffer} (h : Holds limits total b) :
    Holds limits (total ++ texts.flatten) (texts.foldl OutputBuffer.accept b) := by
  induction texts generalizing total b with
  | nil =>
    rw [List.flatten_nil, List.append_nil]
    exact h
  | cons text rest ih =>
    rw [List.flatten_cons, ← List.append_assoc]
    exact ih (h.accept htail text)

/-- **The window loses nothing the caller shows.** For all limits, texts and places of the takes and
snapshots: no trim cuts inside a character or reads past an index; a snapshot after a take is the
one of a buffer that was fed the complete output in whatever pieces; bytes and newlines delivered or
skipped are those pushed; and an event that carries a skip carries more than the window after it. -/
theorem tail_shown_exactly (w : Window) (moves later : List Move)
    (hlater : Move.take ∉ later) :
    ∃ t out b, (Tail.new w).run (moves ++ [.take] ++ later) = some t ∧
      t.buffer.snapshot = some (out, b) ∧
      (∀ texts : List (List Char), texts.flatten = pushed moves →
        ((texts.foldl OutputBuffer.accept (.new w.limits)).snapshot.map Prod.fst) = some out) ∧
      (t.events.map Event.bytes).sum = textLen (pushed moves) ∧
      (t.events.map Event.newlines).sum = newlineCount (pushed moves) ∧
      ∀ event ∈ t.events, event.skipped ≠ none →
        w.maxBytes < textLen event.text ∨ w.maxLines < newlineCount event.text := by
  obtain ⟨t₁, delivered, owed, hrun₁, h₁, hall⟩ := (Inv.new w).run moves
  obtain ⟨t₂, hrun₂, h₂⟩ := h₁.take
  rw [hall, List.append_nil, List.nil_append] at h₂
  obtain ⟨t₃, owed₃, hrun₃, h₃⟩ := h₂.later later hlater
  obtain ⟨out, b, hsnapshot, hshown, -⟩ := h₃.holds.snapshot rfl
  refine ⟨t₃, out, b, ?_, hsnapshot, ?_, h₃.delivers.bytes, h₃.delivers.newlines, ?_⟩
  · rw [Tail.run, List.foldlM_append, List.foldlM_append]
    rw [Tail.run] at hrun₁ hrun₃
    rw [hrun₁]
    show ((List.foldlM Tail.step t₁ [.take]).bind fun t => List.foldlM Tail.step t later) = _
    rw [List.foldlM_cons, hrun₂]
    exact hrun₃
  · intro texts htexts
    have hholds := holds_texts rfl texts (Holds.new w.limits)
    rw [List.nil_append, htexts] at hholds
    obtain ⟨out', b', hsnapshot', hshown', -⟩ := hholds.snapshot rfl
    rw [hsnapshot', hshown'.unique hshown]
    rfl
  · intro event hevent hskipped
    have hproves := h₃.delivers.proves event hevent hskipped
    rw [newlineCount, count_newline]
    exact hproves

/-- A window of one byte and one line, pushed eleven bytes: the first ten are only counted. -/
theorem tail_shown_exactly_small :
    ∃ t out b, (Tail.new ⟨1, 1⟩).run
        ([.push "stdout" "one\ntwo\n".toList, .push "stderr" "abc".toList] ++ [.take] ++
          [.push "stdout" ['d']]) = some t ∧
      t.buffer.snapshot = some (out, b) ∧ out = ⟨['c'], 10, 2⟩ := by
  obtain ⟨t, out, b, hrun, hsnapshot, hshown, -⟩ := tail_shown_exactly ⟨1, 1⟩
    [.push "stdout" "one\ntwo\n".toList, .push "stderr" "abc".toList] [.push "stdout" ['d']]
    (by simp)
  refine ⟨t, out, b, hrun, hsnapshot, ?_⟩
  have h := hshown ["one\ntwo\nabc".toList] (by decide)
  exact (Option.some.inj (h.symm.trans (by decide +kernel)))

end ThreeXhaust.Env
