import Mathlib.Data.List.Nodup
import Mathlib.Data.List.Perm.Basic
import ThreeXhaust.Lib.Run

/-!
# The window of calls

`chord/src/next/remote/calls.ts`: a host has at most as many calls in flight on a link as the peer's
`hello` allows; the others wait in one queue. A waiting call may be taken out. What was submitted,
sent and taken out is noted, in order, and read by nothing.
-/

namespace ThreeXhaust.Chord.Remote

structure QueuedCall where
  id : Nat
  hold : Nat
deriving DecidableEq

structure CallWindow where
  limit : Nat
  inFlight : Nat
  waiting : List QueuedCall
  submitted : List QueuedCall
  sent : List QueuedCall
  removed : List QueuedCall

inductive CallInput where
  | submit (call : QueuedCall)
  | opened (limit : Nat)
  | freed
  | remove (call : QueuedCall)
  | removeHold (hold : Nat)
  | clear

namespace CallWindow

def init : CallWindow := ⟨0, 0, [], [], [], []⟩

def send (w : CallWindow) (call : QueuedCall) : CallWindow :=
  { w with inFlight := w.inFlight + 1, sent := w.sent ++ [call] }

def submit (w : CallWindow) (call : QueuedCall) : CallWindow :=
  let w := { w with submitted := w.submitted ++ [call] }
  if w.waiting.isEmpty && w.inFlight < w.limit then w.send call
  else { w with waiting := w.waiting ++ [call] }

/-- The loop over the waiting calls. -/
def drain (w : CallWindow) : List QueuedCall → CallWindow
  | [] => { w with waiting := [] }
  | call :: rest =>
    if w.inFlight ≥ w.limit then { w with waiting := call :: rest } else (w.send call).drain rest

def takeOut (w : CallWindow) (which : QueuedCall → Bool) : CallWindow :=
  { w with
    waiting := w.waiting.filter (!which ·)
    removed := w.removed ++ w.waiting.filter which }

def step (w : CallWindow) : CallInput → CallWindow
  | .submit call => w.submit call
  | .opened limit => { w with limit }.drain w.waiting
  | .freed => { w with inFlight := w.inFlight - 1 }.drain w.waiting
  | .remove call => w.takeOut (· = call)
  | .removeHold hold => w.takeOut (·.hold = hold)
  | .clear => w.takeOut fun _ => true

/-- A call is submitted once, the peer says `hello` once, and what ends was in flight. -/
def Proper (w : CallWindow) : CallInput → Prop
  | .submit call => call ∉ w.submitted
  | .opened _ => w.limit = 0
  | .freed => 0 < w.inFlight
  | _ => True

structure Kept (w : CallWindow) : Prop where
  window : w.inFlight ≤ w.limit
  /-- No call waits for a slot that is free. -/
  busy : w.waiting ≠ [] → w.inFlight = w.limit
  once : w.submitted.Nodup
  inOrder : (w.sent ++ w.waiting).Sublist w.submitted
  all : w.submitted.Perm (w.sent ++ w.waiting ++ w.removed)

variable {w : CallWindow}

/-- The loop moves calls from the queue to those sent, up to the limit. -/
theorem drain_spec (h : w.inFlight ≤ w.limit) (waiting : List QueuedCall) :
    ∃ sent rest inFlight, w.drain waiting = { w with sent, waiting := rest, inFlight } ∧
      sent ++ rest = w.sent ++ waiting ∧ inFlight ≤ w.limit ∧ (rest ≠ [] → inFlight = w.limit) := by
  induction waiting generalizing w with
  | nil => exact ⟨w.sent, [], w.inFlight, rfl, rfl, h, fun hne => absurd rfl hne⟩
  | cons call waiting ih =>
    rw [drain]
    split
    · next hfull => exact ⟨w.sent, call :: waiting, w.inFlight, rfl, rfl, h, fun _ => by omega⟩
    · next hfree =>
      have hsend : (w.send call).inFlight ≤ (w.send call).limit := by
        show w.inFlight + 1 ≤ w.limit
        omega
      obtain ⟨sent, rest, inFlight, heq, hlists, hwindow, hbusy⟩ := ih hsend
      refine ⟨sent, rest, inFlight, heq, ?_, hwindow, hbusy⟩
      rw [hlists]
      show w.sent ++ [call] ++ waiting = _
      rw [List.append_assoc]
      rfl

theorem Kept.drain (h : w.Kept) {limit inFlight : Nat} (hle : inFlight ≤ limit) :
    ({ w with limit, inFlight }.drain w.waiting).Kept := by
  have hle' : ({ w with limit, inFlight } : CallWindow).inFlight ≤
      ({ w with limit, inFlight } : CallWindow).limit := hle
  obtain ⟨sent, rest, inFlight, heq, hlists, hwindow, hbusy⟩ := drain_spec hle' w.waiting
  rw [heq]
  refine ⟨hwindow, hbusy, h.once, ?_, ?_⟩
  · show (sent ++ rest).Sublist w.submitted
    rw [hlists]
    exact h.inOrder
  · show w.submitted.Perm (sent ++ rest ++ w.removed)
    rw [hlists]
    exact h.all

theorem Kept.takeOut (h : w.Kept) (which : QueuedCall → Bool) : (w.takeOut which).Kept := by
  refine ⟨h.window, fun hne => h.busy ?_, h.once, ?_, h.all.trans ?_⟩
  · intro hempty
    exact hne (by simp [CallWindow.takeOut, hempty])
  · exact (List.filter_sublist.append_left w.sent).trans h.inOrder
  · show (w.sent ++ w.waiting ++ w.removed).Perm
      (w.sent ++ w.waiting.filter (!which ·) ++ (w.removed ++ w.waiting.filter which))
    have hsplit := List.filter_append_perm (!which ·) w.waiting
    simp only [Bool.not_not] at hsplit
    rw [List.append_assoc, List.append_assoc]
    refine List.Perm.append_left w.sent ((hsplit.symm.append_right _).trans ?_)
    rw [List.append_assoc]
    exact List.Perm.append_left _ List.perm_append_comm

theorem Kept.step (h : w.Kept) {input : CallInput} (hinput : w.Proper input) :
    (w.step input).Kept := by
  cases input with
  | submit call =>
    have honce : (w.submitted ++ [call]).Nodup :=
      List.nodup_append_comm.mp (List.nodup_cons.mpr ⟨hinput, h.once⟩)
    have hall : (w.submitted ++ [call]).Perm (w.sent ++ (w.waiting ++ [call]) ++ w.removed) := by
      refine (h.all.append_right [call]).trans ?_
      simp only [List.append_assoc]
      exact List.Perm.append_left _ (List.Perm.append_left _ List.perm_append_comm)
    rw [CallWindow.step, submit]
    split
    · next hfree =>
      simp only [Bool.and_eq_true, List.isEmpty_iff, decide_eq_true_eq] at hfree
      obtain ⟨hnone, hslot⟩ := hfree
      refine ⟨hslot, fun hne => absurd hnone hne, honce, ?_, ?_⟩
      · show (w.sent ++ [call] ++ w.waiting).Sublist _
        have hsent := h.inOrder
        rw [hnone, List.append_nil] at hsent ⊢
        exact hsent.append_right [call]
      · show (w.submitted ++ [call]).Perm (w.sent ++ [call] ++ w.waiting ++ w.removed)
        rw [hnone] at hall ⊢
        simpa using hall
    · next hfull =>
      refine ⟨h.window, fun _ => ?_, honce, ?_, hall⟩
      · by_cases hnone : w.waiting = []
        · have hslot : ¬ w.inFlight < w.limit := by simpa [hnone] using hfull
          exact le_antisymm h.window (Nat.le_of_not_lt hslot)
        · exact h.busy hnone
      · show (w.sent ++ (w.waiting ++ [call])).Sublist _
        rw [← List.append_assoc]
        exact h.inOrder.append_right [call]
  | opened limit =>
    have hwindow := h.window
    rw [show w.limit = 0 from hinput] at hwindow
    exact h.drain (by omega)
  | freed => exact h.drain (by have hwindow := h.window; omega)
  | remove call => exact h.takeOut _
  | removeHold hold => exact h.takeOut _
  | clear => exact h.takeOut _

/-- **Calls go out in order, each once**: in every run at most `limit` calls are in flight and none
waits while a slot is free; those sent and those that wait stand in the order they were submitted in,
and what was submitted was sent, waits or was taken out, one of the three. -/
theorem calls_in_order {w : CallWindow} (h : Run.Reachable step Proper init w) :
    w.inFlight ≤ w.limit ∧ (w.waiting ≠ [] → w.inFlight = w.limit) ∧ w.submitted.Nodup ∧
      (w.sent ++ w.waiting).Sublist w.submitted ∧
      w.submitted.Perm (w.sent ++ w.waiting ++ w.removed) := by
  have hinit : init.Kept :=
    ⟨Nat.le_refl 0, fun _ => rfl, List.nodup_nil, List.Sublist.refl [], List.Perm.refl []⟩
  have hkept := h.invariant Kept hinit fun _ _ hw hi => hw.step hi
  exact ⟨hkept.window, hkept.busy, hkept.once, hkept.inOrder, hkept.all⟩

/-- The second call waits, and the third is taken out behind it. -/
def threeCalls : List CallInput :=
  [.opened 1, .submit ⟨0, 0⟩, .submit ⟨1, 0⟩, .submit ⟨2, 1⟩, .removeHold 1, .freed]

theorem calls_in_order_three : (threeCalls.foldl step init).sent = [⟨0, 0⟩, ⟨1, 0⟩] ∧
    (threeCalls.foldl step init).inFlight ≤ (threeCalls.foldl step init).limit := by
  have hguarded : Run.Guarded step Proper init threeCalls :=
    ⟨rfl, List.not_mem_nil, by simp [Proper, step, submit, drain, init, send],
      by simp [Proper, step, submit, drain, init, send], trivial, Nat.one_pos, trivial⟩
  exact ⟨by decide, (calls_in_order (Run.reachable_foldl .init hguarded)).1⟩

end CallWindow

end ThreeXhaust.Chord.Remote
