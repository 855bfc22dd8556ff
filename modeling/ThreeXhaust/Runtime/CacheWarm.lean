import ThreeXhaust.Lib.Run
import Mathlib.Data.Rat.Defs
import Mathlib.Algebra.Order.Ring.Rat

/-!
# The cache warmer

`cache-warm-controller.ts`: `CacheWarmController` keeps a provider's prompt cache warm. It schedules
a timer for its target; the timer starts a `warm` call, which takes a while and may be aborted, and
whose end schedules the next timer.

A call in flight is known to the controller by `activeController` alone. A timer that is scheduled
while a call is in flight, by a target that is set again or a resume that follows no suspend, and
that fires before the call ends, takes its place there: from then on nothing can abort the first
call.

* **`Base.step`** — what holds in every run: a scheduled timer is the controller's own.
-/

namespace ThreeXhaust.Runtime.CacheWarm

/-! ## The source -/

inductive ThinkingLevel where
  | off
  | minimal
  | low
  | medium
  | high
  | xhigh
deriving DecidableEq

structure CacheWarmTarget where
  projectRoot : String
  sessionId : String
  provider : String
  model : String
  accountId : Option String
  thinkingLevel : ThinkingLevel
deriving DecidableEq

structure CacheWarmResult where
  durationMs : ℚ
  contextTokens : ℚ
  cacheRead : ℚ
  estimatedSavingsUsd : Option ℚ

inductive CacheWarmState where
  | off
  | waiting
  | scheduled
  | warming
  | fresh
  | retry
  | unavailable
deriving DecidableEq

structure Latest where
  contextTokens : Option ℚ := none
  estimatedSavingsUsd : Option ℚ := none
  lastDurationMs : Option ℚ := none
  lastError : Option String := none

/-- A timer that was neither cancelled nor has fired, and the target it was scheduled for. -/
structure Timer where
  id : Nat
  target : CacheWarmTarget

/-- A `warm` call that has not ended, with the controller of its signal. -/
structure Call where
  controller : Nat
  target : CacheWarmTarget
  targetGeneration : Nat
  aborted : Bool

/-- The fields of the controller, and what is under way outside of it. Timers and abort controllers
are numbered. -/
structure State where
  enabled : Bool
  state : CacheWarmState
  iteration : Nat := 0
  target : Option CacheWarmTarget := none
  timer : Option Nat := none
  activeController : Option Nat := none
  targetGeneration : Nat := 0
  suspended : Bool := false
  latest : Latest := {}
  nextWakeAt : Option ℚ := none
  scheduled : List Timer := []
  timers : Nat := 0
  inFlight : List Call := []
  controllers : Nat := 0

def initial (enabled : Bool) : State := { enabled, state := if enabled then .waiting else .off }

/-- What the controller reads from outside: the clock and the delays. -/
structure World where
  clock : ℚ
  delayFor : String → Option ℚ

namespace State

def cancelScheduled (s : State) : State :=
  { s with
    scheduled := s.scheduled.filter fun p => s.timer ≠ some p.id
    timer := none
    nextWakeAt := none }

def abortActive (s : State) : State :=
  { s with
    inFlight := s.inFlight.map fun c =>
      if s.activeController = some c.controller then { c with aborted := true } else c }

def sameTarget (s : State) (target : Option CacheWarmTarget) : Bool := s.target = target

def scheduleNext (world : World) (state : CacheWarmState) (s : State) : State :=
  let s := s.cancelScheduled
  if !s.enabled || s.suspended then { s with state := if s.enabled then .waiting else .off }
  else
    match s.target with
    | none => { s with state := .waiting }
    | some target =>
      match world.delayFor target.provider with
      | none => { s with state := .unavailable }
      | some delayMs =>
        { s with
          nextWakeAt := some (world.clock + delayMs)
          state := state
          timer := some s.timers
          timers := s.timers + 1
          scheduled := ⟨s.timers, target⟩ :: s.scheduled }

def setEnabled (world : World) (enabled : Bool) (s : State) : State :=
  if s.enabled = enabled then s
  else
    let s := { s with enabled }
    if !enabled then { s.cancelScheduled.abortActive with state := .off }
    else s.scheduleNext world .scheduled

/-- What `setTarget` does first. -/
def leaveTarget (target : Option CacheWarmTarget) (s : State) : State :=
  if s.sameTarget target then s
  else
    { s.abortActive with
      targetGeneration := s.targetGeneration + 1
      iteration := 0
      latest := {} }

def setTarget (world : World) (target : Option CacheWarmTarget) (s : State) : State :=
  let s := { s.leaveTarget target with target }
  if s.enabled then s.scheduleNext world .scheduled else s

def reset (enabled : Bool) (s : State) : State :=
  { s.cancelScheduled.abortActive with
    enabled
    targetGeneration := s.targetGeneration + 1
    target := none
    iteration := 0
    suspended := false
    latest := {}
    state := if enabled then .waiting else .off }

def suspend (s : State) : State :=
  let s := ({ s with suspended := true }).cancelScheduled.abortActive
  if s.enabled then { s with state := .waiting } else s

def resume (world : World) (s : State) : State :=
  let s := { s with suspended := false }
  if s.enabled then s.scheduleNext world .scheduled else s

/-- `runWake` up to its `await`. -/
def runWake (s : State) : State :=
  match s.target with
  | none => s
  | some target =>
    if !s.enabled || s.suspended then s
    else
      { s with
        activeController := some s.controllers
        controllers := s.controllers + 1
        state := .warming
        inFlight := ⟨s.controllers, target, s.targetGeneration, false⟩ :: s.inFlight }

def fire (id : Nat) (s : State) : State :=
  if s.scheduled.any (·.id = id) then
    ({ s with
      scheduled := s.scheduled.filter (·.id ≠ id)
      timer := none
      nextWakeAt := none }).runWake
  else s

/-- A call ends: `finally` lets go of its controller. -/
def ended (call : Call) (s : State) : State :=
  { s with
    inFlight := s.inFlight.filter (·.controller ≠ call.controller)
    activeController :=
      if s.activeController = some call.controller then none else s.activeController }

/-- `runWake` behind its `await`. -/
def warmed (world : World) (call : Call) (result : CacheWarmResult) (s : State) : State :=
  if !s.enabled || s.suspended || call.aborted || call.targetGeneration ≠ s.targetGeneration then s
  else if result.cacheRead ≤ 0 ∨ result.estimatedSavingsUsd.getD 0 < 1 / 100 then
    { s with
      latest :=
        { contextTokens := some result.contextTokens
          lastDurationMs := some result.durationMs
          lastError :=
            some (if result.cacheRead ≤ 0 then "Cache miss" else "Projected savings below $0.01") }
      state := .unavailable }
  else
    { s with
      iteration := s.iteration + 1
      latest :=
        { contextTokens := some result.contextTokens
          lastDurationMs := some result.durationMs
          estimatedSavingsUsd := result.estimatedSavingsUsd } }.scheduleNext world .fresh

/-- The `catch` of `runWake`. -/
def failed (world : World) (call : Call) (message : String) (s : State) : State :=
  if !s.enabled || call.aborted then s
  else { s with latest := { lastError := some message } }.scheduleNext world .retry

end State

/-- A call of the controller, or what happens outside of it. Its callbacks do not call it back. -/
inductive Event where
  | setEnabled (enabled : Bool)
  | setTarget (target : Option CacheWarmTarget)
  | reset (enabled : Bool)
  | suspend
  | resume
  | fire (timer : Nat)
  | resolve (controller : Nat) (result : CacheWarmResult)
  | reject (controller : Nat) (message : String)

structure Input where
  world : World
  event : Event

def callOf (s : State) (controller : Nat) : Option Call :=
  s.inFlight.find? (·.controller = controller)

def step (s : State) (input : Input) : State :=
  match input.event with
  | .setEnabled enabled => s.setEnabled input.world enabled
  | .setTarget target => s.setTarget input.world target
  | .reset enabled => s.reset enabled
  | .suspend => s.suspend
  | .resume => s.resume input.world
  | .fire timer => s.fire timer
  | .resolve controller result =>
    match callOf s controller with
    | none => s
    | some call => (s.warmed input.world call result).ended call
  | .reject controller message =>
    match callOf s controller with
    | none => s
    | some call => (s.failed input.world call message).ended call

/-! ## What should hold -/

def Exclusive (s : State) : Prop := (s.inFlight.filter (!·.aborted)).length ≤ 1

instance (s : State) : Decidable (Exclusive s) := inferInstanceAs (Decidable (_ ≤ _))

def AllAborted (s : State) : Prop := ∀ c ∈ s.inFlight, c.aborted = true

instance (s : State) : Decidable (AllAborted s) := inferInstanceAs (Decidable (∀ c ∈ _, _))

def Ended (s : State) (input : Input) : Prop :=
  match input.event with
  | .suspend => (step s input).scheduled = [] ∧ AllAborted (step s input)
  | .reset _ => (step s input).scheduled = [] ∧ AllAborted (step s input)
  | .setEnabled false => (step s input).scheduled = [] ∧ AllAborted (step s input)
  | .setTarget target =>
    s.target ≠ target →
      (∀ p ∈ (step s input).scheduled, s.target ≠ some p.target) ∧ AllAborted (step s input)
  | _ => True

/-- In every state of a run one call at most is not aborted, and what ends the warming of a target
leaves no timer for it and no call that is not aborted. -/
def Holds : State → List Input → Prop
  | s, [] => Exclusive s
  | s, input :: inputs => Exclusive s ∧ Ended s input ∧ Holds (step s input) inputs

/-- A timer fires only when no call is in flight that is not aborted. -/
def Timely (s : State) (input : Input) : Prop :=
  match input.event with
  | .fire timer => s.scheduled.any (·.id = timer) = true → AllAborted s
  | _ => True

/-! ## Timers

A scheduled timer is the one the controller knows. -/

def Handled (s : State) : Prop := ∀ p ∈ s.scheduled, s.timer = some p.id

/-- A timer is scheduled for the target, and only where the controller is to warm it. -/
structure Timers (s : State) : Prop where
  handled : Handled s
  enabled : ∀ p ∈ s.scheduled, s.enabled = true
  suspended : ∀ p ∈ s.scheduled, s.suspended = false
  target : ∀ p ∈ s.scheduled, s.target = some p.target

theorem Timers.of_nil {s : State} (h : s.scheduled = []) : Timers s := by
  have hnone : ∀ p, p ∉ s.scheduled := by
    intro p hp
    rw [h] at hp
    cases hp
  exact ⟨fun p hp => absurd hp (hnone p), fun p hp => absurd hp (hnone p),
    fun p hp => absurd hp (hnone p), fun p hp => absurd hp (hnone p)⟩

theorem Timers.nil_of_disabled {s : State} (h : Timers s) (hs : s.enabled = false) :
    s.scheduled = [] := by
  rw [List.eq_nil_iff_forall_not_mem]
  intro p hp
  rw [h.enabled p hp] at hs
  cases hs

namespace State

variable {s : State}

theorem scheduled_cancelScheduled (h : Handled s) : s.cancelScheduled.scheduled = [] := by
  show s.scheduled.filter _ = []
  rw [List.filter_eq_nil_iff]
  intro p hp
  rw [h p hp]
  simp

theorem timers_scheduleNext (h : Handled s) (world : World) (state : CacheWarmState) :
    Timers (s.scheduleNext world state) := by
  have hnil := scheduled_cancelScheduled h
  unfold scheduleNext
  dsimp only
  split
  · exact .of_nil hnil
  next hon =>
  split
  · exact .of_nil hnil
  next target htarget =>
  split
  · exact .of_nil hnil
  · -- one timer, for the target of now
    rw [Bool.or_eq_true, Bool.not_eq_true', not_or, Bool.not_eq_false, Bool.not_eq_true] at hon
    rw [hnil]
    refine ⟨fun p hp => ?_, fun _ _ => hon.1, fun _ _ => hon.2, fun p hp => ?_⟩
    · rw [List.mem_singleton.mp hp]
    · rw [List.mem_singleton.mp hp]
      exact htarget

theorem timers_warmed (h : Timers s) (world : World) (call : Call) (result : CacheWarmResult) :
    Timers (s.warmed world call result) := by
  unfold warmed
  split
  · exact h
  split
  · exact ⟨h.handled, h.enabled, h.suspended, h.target⟩
  · refine timers_scheduleNext ?_ world .fresh
    exact h.handled

theorem timers_failed (h : Timers s) (world : World) (call : Call) (message : String) :
    Timers (s.failed world call message) := by
  unfold failed
  split
  · exact h
  · refine timers_scheduleNext ?_ world .retry
    exact h.handled

theorem timers_runWake (h : Timers s) : Timers s.runWake := by
  unfold runWake
  split
  · exact h
  split
  · exact h
  · exact ⟨h.handled, h.enabled, h.suspended, h.target⟩

theorem scheduled_after_fire (h : Handled s) {id : Nat}
    (hid : s.scheduled.any (·.id = id) = true) : s.scheduled.filter (·.id ≠ id) = [] := by
  obtain ⟨q, hq, hqid⟩ := List.any_eq_true.mp hid
  rw [List.filter_eq_nil_iff]
  intro p hp
  have hsame : p.id = q.id := by
    have h1 := h p hp
    rw [h q hq] at h1
    exact (Option.some.inj h1).symm
  have hq := of_decide_eq_true hqid
  simp [hsame, hq]

theorem timers_leaveTarget (h : Timers s) (target : Option CacheWarmTarget) :
    Timers (s.leaveTarget target) := by
  unfold leaveTarget
  split
  · exact h
  · exact ⟨h.handled, h.enabled, h.suspended, h.target⟩

theorem timers_setTarget (h : Timers s) (world : World) (target : Option CacheWarmTarget) :
    Timers (s.setTarget world target) := by
  have hleave := timers_leaveTarget h target
  unfold setTarget
  dsimp only
  split
  · -- the timer that is cancelled may be one for the target before
    refine timers_scheduleNext ?_ world .scheduled
    exact hleave.handled
  · next hoff =>
    refine .of_nil ?_
    exact hleave.nil_of_disabled (by simpa using hoff)

theorem timers_setEnabled (h : Timers s) (world : World) (enabled : Bool) :
    Timers (s.setEnabled world enabled) := by
  unfold setEnabled
  split
  · exact h
  dsimp only
  split
  · exact .of_nil (scheduled_cancelScheduled (s := { s with enabled }) h.handled)
  · refine timers_scheduleNext ?_ world .scheduled
    exact h.handled

theorem timers_resume (h : Timers s) (world : World) : Timers (s.resume world) := by
  unfold resume
  dsimp only
  split
  · refine timers_scheduleNext ?_ world .scheduled
    exact h.handled
  · next hoff => exact .of_nil (h.nil_of_disabled (by simpa using hoff))

theorem scheduled_suspend (h : Handled s) : s.suspend.scheduled = [] := by
  have hnil := scheduled_cancelScheduled (s := { s with suspended := true }) h
  unfold suspend
  dsimp only
  split <;> exact hnil

theorem scheduled_reset (h : Handled s) (enabled : Bool) : (s.reset enabled).scheduled = [] :=
  scheduled_cancelScheduled h

end State

theorem settled {P : State → Prop} {s : State} {controller : Nat} (f : Call → State) (h : P s)
    (hf : ∀ call, P ((f call).ended call)) :
    P (match callOf s controller with
      | none => s
      | some call => (f call).ended call) := by
  cases callOf s controller with
  | none => exact h
  | some call => exact hf call

theorem Timers.step {s : State} (h : Timers s) (input : Input) : Timers (step s input) := by
  obtain ⟨world, event⟩ := input
  cases event with
  | setEnabled enabled => exact State.timers_setEnabled h world enabled
  | setTarget target => exact State.timers_setTarget h world target
  | reset enabled => exact .of_nil (State.scheduled_reset h.handled enabled)
  | suspend => exact .of_nil (State.scheduled_suspend h.handled)
  | resume => exact State.timers_resume h world
  | fire timer =>
    show Timers (s.fire timer)
    unfold State.fire
    split
    · next hid =>
      exact State.timers_runWake (.of_nil (State.scheduled_after_fire h.handled hid))
    · exact h
  | resolve controller result =>
    refine settled (P := Timers) (s.warmed world · result) h fun call => ?_
    have ht := State.timers_warmed h world call result
    exact ⟨ht.handled, ht.enabled, ht.suspended, ht.target⟩
  | reject controller message =>
    refine settled (P := Timers) (s.failed world · message) h fun call => ?_
    have ht := State.timers_failed h world call message
    exact ⟨ht.handled, ht.enabled, ht.suspended, ht.target⟩

/-! ## Calls in flight -/

structure Calls (s : State) : Prop where
  fresh : ∀ c ∈ s.inFlight, c.controller < s.controllers
  nodup : (s.inFlight.map Call.controller).Nodup

/-- A call that is not aborted is the active one, and the controller is to warm. -/
structure Owned (s : State) : Prop where
  known : ∀ c ∈ s.inFlight, c.aborted = false → s.activeController = some c.controller
  live : ∀ c ∈ s.inFlight, c.aborted = false → s.enabled = true ∧ s.suspended = false

theorem AllAborted.owned {s : State} (h : AllAborted s) : Owned s := by
  refine ⟨fun c hc hnot => ?_, fun c hc hnot => ?_⟩
  · rw [h c hc] at hnot
    cases hnot
  · rw [h c hc] at hnot
    cases hnot

structure SameCalls (s t : State) : Prop where
  inFlight : t.inFlight = s.inFlight
  activeController : t.activeController = s.activeController
  controllers : t.controllers = s.controllers
  enabled : t.enabled = s.enabled
  suspended : t.suspended = s.suspended

section

variable {s t : State}

theorem SameCalls.calls (h : SameCalls s t) (hs : Calls s) : Calls t := by
  refine ⟨?_, ?_⟩
  · rw [h.inFlight, h.controllers]
    exact hs.fresh
  · rw [h.inFlight]
    exact hs.nodup

theorem SameCalls.owned (h : SameCalls s t) (hs : Owned s) : Owned t := by
  refine ⟨?_, ?_⟩
  · rw [h.inFlight, h.activeController]
    exact hs.known
  · rw [h.inFlight, h.enabled, h.suspended]
    exact hs.live

theorem SameCalls.allAborted (h : SameCalls s t) (hs : AllAborted s) : AllAborted t := by
  rw [AllAborted, h.inFlight]
  exact hs

theorem Owned.exclusive (h : Owned s) (hs : Calls s) : Exclusive s := by
  have hnodup : ((s.inFlight.filter (!·.aborted)).map Call.controller).Nodup :=
    hs.nodup.sublist (List.filter_sublist.map _)
  have hactive : ∀ c ∈ s.inFlight.filter (!·.aborted), s.activeController = some c.controller := by
    intro c hc
    obtain ⟨hmem, hnot⟩ := List.mem_filter.mp hc
    exact h.known c hmem (by simpa using hnot)
  unfold Exclusive
  generalize s.inFlight.filter (!·.aborted) = calls at hnodup hactive ⊢
  match calls with
  | [] => exact Nat.zero_le 1
  | [_] => exact Nat.le_refl 1
  | a :: b :: rest =>
    have ha := hactive a List.mem_cons_self
    rw [hactive b (List.mem_cons_of_mem _ List.mem_cons_self)] at ha
    simp only [List.map_cons, List.nodup_cons, List.mem_cons, not_or] at hnodup
    exact absurd (Option.some.inj ha).symm hnodup.1.1

end

namespace State

variable {s : State}

theorem sameCalls_scheduleNext (s : State) (world : World) (state : CacheWarmState) :
    SameCalls s (s.scheduleNext world state) := by
  unfold scheduleNext
  dsimp only
  split
  · exact ⟨rfl, rfl, rfl, rfl, rfl⟩
  split
  · exact ⟨rfl, rfl, rfl, rfl, rfl⟩
  split
  · exact ⟨rfl, rfl, rfl, rfl, rfl⟩
  · exact ⟨rfl, rfl, rfl, rfl, rfl⟩

theorem sameCalls_warmed (s : State) (world : World) (call : Call) (result : CacheWarmResult) :
    SameCalls s (s.warmed world call result) := by
  unfold warmed
  split
  · exact ⟨rfl, rfl, rfl, rfl, rfl⟩
  split
  · exact ⟨rfl, rfl, rfl, rfl, rfl⟩
  · obtain ⟨h1, h2, h3, h4, h5⟩ := sameCalls_scheduleNext { s with
      iteration := s.iteration + 1
      latest :=
        { contextTokens := some result.contextTokens
          lastDurationMs := some result.durationMs
          estimatedSavingsUsd := result.estimatedSavingsUsd } } world .fresh
    exact ⟨h1, h2, h3, h4, h5⟩

theorem sameCalls_failed (s : State) (world : World) (call : Call) (message : String) :
    SameCalls s (s.failed world call message) := by
  unfold failed
  split
  · exact ⟨rfl, rfl, rfl, rfl, rfl⟩
  · obtain ⟨h1, h2, h3, h4, h5⟩ :=
      sameCalls_scheduleNext { s with latest := { lastError := some message } } world .retry
    exact ⟨h1, h2, h3, h4, h5⟩

theorem calls_abortActive (h : Calls s) : Calls s.abortActive := by
  have hcontroller : ∀ c : Call, (if s.activeController = some c.controller then
      { c with aborted := true } else c).controller = c.controller := by
    intro c
    split <;> rfl
  refine ⟨fun c hc => ?_, ?_⟩
  · obtain ⟨d, hd, rfl⟩ := List.mem_map.mp hc
    rw [hcontroller d]
    exact h.fresh d hd
  · have hmap : s.abortActive.inFlight.map Call.controller = s.inFlight.map Call.controller := by
      show (s.inFlight.map _).map Call.controller = _
      rw [List.map_map]
      exact List.map_congr_left fun c _ => hcontroller c
    rw [hmap]
    exact h.nodup

theorem allAborted_abortActive
    (h : ∀ c ∈ s.inFlight, c.aborted = false → s.activeController = some c.controller) :
    AllAborted s.abortActive := by
  intro c hc
  obtain ⟨d, hd, rfl⟩ := List.mem_map.mp hc
  by_cases hactive : s.activeController = some d.controller
  · rw [if_pos hactive]
  · rw [if_neg hactive]
    cases haborted : d.aborted with
    | true => rfl
    | false => exact absurd (h d hd haborted) hactive

theorem calls_runWake (h : Calls s) : Calls s.runWake := by
  unfold runWake
  split
  · exact h
  split
  · exact h
  · refine ⟨fun c hc => ?_, ?_⟩
    · rcases List.mem_cons.mp hc with rfl | hc
      · exact Nat.lt_succ_self _
      · exact Nat.lt_succ_of_lt (h.fresh c hc)
    · show (s.controllers :: s.inFlight.map Call.controller).Nodup
      refine List.nodup_cons.mpr ⟨fun hmem => ?_, h.nodup⟩
      obtain ⟨c, hc, hid⟩ := List.mem_map.mp hmem
      have := h.fresh c hc
      omega

theorem owned_runWake (h : AllAborted s) : Owned s.runWake := by
  unfold runWake
  split
  · exact h.owned
  split
  · exact h.owned
  · next hon =>
    rw [Bool.or_eq_true, Bool.not_eq_true', not_or, Bool.not_eq_false, Bool.not_eq_true] at hon
    refine ⟨fun c hc hnot => ?_, fun _ _ _ => hon⟩
    rcases List.mem_cons.mp hc with rfl | hc
    · rfl
    · rw [h c hc] at hnot
      cases hnot

theorem calls_ended (h : Calls s) (call : Call) : Calls (s.ended call) :=
  ⟨fun c hc => h.fresh c (List.mem_of_mem_filter hc),
    h.nodup.sublist (List.filter_sublist.map _)⟩

theorem owned_ended (h : Owned s) (call : Call) : Owned (s.ended call) := by
  refine ⟨fun c hc hnot => ?_, fun c hc hnot => h.live c (List.mem_of_mem_filter hc) hnot⟩
  obtain ⟨hmem, hother⟩ := List.mem_filter.mp hc
  have hactive := h.known c hmem hnot
  show (if s.activeController = some call.controller then none else s.activeController) = _
  rw [if_neg, hactive]
  rw [hactive, Option.some.injEq]
  simpa using hother

end State

/-! ## Runs -/

structure Base (s : State) : Prop where
  timers : Timers s
  calls : Calls s

theorem Calls.step {s : State} (h : Calls s) (input : Input) : Calls (step s input) := by
  obtain ⟨world, event⟩ := input
  cases event with
  | setEnabled enabled =>
    show Calls (s.setEnabled world enabled)
    unfold State.setEnabled
    split
    · exact h
    dsimp only
    split
    · have habort := State.calls_abortActive (s := ({ s with enabled }).cancelScheduled) ⟨h.fresh, h.nodup⟩
      exact ⟨habort.fresh, habort.nodup⟩
    · exact (State.sameCalls_scheduleNext { s with enabled } world .scheduled).calls
        ⟨h.fresh, h.nodup⟩
  | setTarget target =>
    have hleave : Calls (s.leaveTarget target) := by
      unfold State.leaveTarget
      split
      · exact h
      · have habort := State.calls_abortActive h
        exact ⟨habort.fresh, habort.nodup⟩
    show Calls (s.setTarget world target)
    unfold State.setTarget
    dsimp only
    split
    · exact (State.sameCalls_scheduleNext { s.leaveTarget target with target } world
        .scheduled).calls ⟨hleave.fresh, hleave.nodup⟩
    · exact ⟨hleave.fresh, hleave.nodup⟩
  | reset enabled =>
    have habort := State.calls_abortActive (s := s.cancelScheduled) ⟨h.fresh, h.nodup⟩
    exact ⟨habort.fresh, habort.nodup⟩
  | suspend =>
    have habort := State.calls_abortActive (s := ({ s with suspended := true }).cancelScheduled)
      ⟨h.fresh, h.nodup⟩
    show Calls s.suspend
    unfold State.suspend
    dsimp only
    split <;> exact ⟨habort.fresh, habort.nodup⟩
  | resume =>
    show Calls (s.resume world)
    unfold State.resume
    dsimp only
    split
    · exact (State.sameCalls_scheduleNext { s with suspended := false } world .scheduled).calls
        ⟨h.fresh, h.nodup⟩
    · exact ⟨h.fresh, h.nodup⟩
  | fire timer =>
    show Calls (s.fire timer)
    unfold State.fire
    split
    · exact State.calls_runWake ⟨h.fresh, h.nodup⟩
    · exact h
  | resolve controller result =>
    exact settled (P := Calls) (s.warmed world · result) h fun call =>
      State.calls_ended ((State.sameCalls_warmed s world call result).calls h) call
  | reject controller message =>
    exact settled (P := Calls) (s.failed world · message) h fun call =>
      State.calls_ended ((State.sameCalls_failed s world call message).calls h) call

theorem Base.step {s : State} (h : Base s) (input : Input) : Base (step s input) :=
  ⟨h.timers.step input, h.calls.step input⟩

namespace State

variable {s : State}

theorem allAborted_setEnabled (h : Owned s) (world : World) :
    AllAborted (s.setEnabled world false) := by
  unfold setEnabled
  split
  · next hoff =>
    -- where nothing is to be warmed, nothing is in flight that is not aborted
    intro c hc
    cases haborted : c.aborted with
    | true => rfl
    | false =>
      rw [(h.live c hc haborted).1] at hoff
      cases hoff
  · exact allAborted_abortActive (s := ({ s with enabled := false }).cancelScheduled) h.known

theorem allAborted_setTarget (h : Owned s) (world : World) {target : Option CacheWarmTarget}
    (hne : s.target ≠ target) : AllAborted (s.setTarget world target) := by
  have hleave : AllAborted (s.leaveTarget target) := by
    unfold leaveTarget sameTarget
    rw [if_neg (by simpa using hne)]
    exact allAborted_abortActive h.known
  unfold setTarget
  dsimp only
  split
  · exact (sameCalls_scheduleNext { s.leaveTarget target with target } world
      .scheduled).allAborted hleave
  · exact hleave

theorem allAborted_suspend (h : Owned s) : AllAborted s.suspend := by
  have habort : AllAborted ({ s with suspended := true }).cancelScheduled.abortActive :=
    allAborted_abortActive h.known
  unfold suspend
  dsimp only
  split <;> exact habort

theorem allAborted_reset (h : Owned s) (enabled : Bool) : AllAborted (s.reset enabled) :=
  allAborted_abortActive (s := s.cancelScheduled) h.known

end State

/-- **A call that is not aborted is the active one**, as long as timers fire in time. -/
theorem Owned.step {s : State} (h : Owned s) {input : Input} (htimely : Timely s input) :
    Owned (step s input) := by
  obtain ⟨world, event⟩ := input
  cases event with
  | setEnabled enabled =>
    cases enabled with
    | false => exact (State.allAborted_setEnabled h world).owned
    | true =>
      show Owned (s.setEnabled world true)
      unfold State.setEnabled
      split
      · exact h
      · next hoff =>
        have hdisabled : s.enabled = false := by simpa using hoff
        refine (State.sameCalls_scheduleNext { s with enabled := true } world .scheduled).owned
          ⟨h.known, fun c hc hnot => ?_⟩
        rw [(h.live c hc hnot).1] at hdisabled
        cases hdisabled
  | setTarget target =>
    by_cases hsame : s.target = target
    · -- the same target again leaves the call alone
      have hleave : s.leaveTarget target = s := if_pos (decide_eq_true hsame)
      show Owned (s.setTarget world target)
      unfold State.setTarget
      rw [hleave]
      dsimp only
      split
      · exact (State.sameCalls_scheduleNext { s with target } world .scheduled).owned
          ⟨h.known, h.live⟩
      · exact ⟨h.known, h.live⟩
    · exact (State.allAborted_setTarget h world hsame).owned
  | reset enabled => exact (State.allAborted_reset h enabled).owned
  | suspend => exact (State.allAborted_suspend h).owned
  | resume =>
    have hresumed : Owned { s with suspended := false } :=
      ⟨h.known, fun c hc hnot => ⟨(h.live c hc hnot).1, rfl⟩⟩
    show Owned (s.resume world)
    unfold State.resume
    dsimp only
    split
    · exact (State.sameCalls_scheduleNext { s with suspended := false } world .scheduled).owned
        hresumed
    · exact hresumed
  | fire timer =>
    show Owned (s.fire timer)
    unfold State.fire
    split
    · next hid => exact State.owned_runWake (htimely hid)
    · exact h
  | resolve controller result =>
    exact settled (P := Owned) (s.warmed world · result) h fun call =>
      State.owned_ended ((State.sameCalls_warmed s world call result).owned h) call
  | reject controller message =>
    exact settled (P := Owned) (s.failed world · message) h fun call =>
      State.owned_ended ((State.sameCalls_failed s world call message).owned h) call

theorem Owned.ended {s : State} (h : Owned s) (hs : Base s) (input : Input) : Ended s input := by
  have htimers := (hs.step input).timers
  obtain ⟨world, event⟩ := input
  cases event with
  | setEnabled enabled =>
    cases enabled with
    | false =>
      refine ⟨htimers.nil_of_disabled ?_, State.allAborted_setEnabled h world⟩
      show (s.setEnabled world false).enabled = false
      unfold State.setEnabled
      split
      · next hoff => exact hoff
      · rfl
    | true => trivial
  | setTarget target =>
    intro hne
    refine ⟨fun p hp hold => ?_, State.allAborted_setTarget h world hne⟩
    -- a timer that is left is one for the new target
    have hnew := htimers.target p hp
    have htarget : (s.setTarget world target).target = target := by
      unfold State.setTarget State.scheduleNext State.cancelScheduled
      dsimp only
      split_ifs
      · rfl
      · split
        · rfl
        · split <;> rfl
      · rfl
    exact hne (hold.trans (hnew.symm.trans htarget))
  | reset enabled =>
    exact ⟨State.scheduled_reset hs.timers.handled enabled, State.allAborted_reset h enabled⟩
  | suspend =>
    exact ⟨State.scheduled_suspend hs.timers.handled, State.allAborted_suspend h⟩
  | resume => trivial
  | fire timer => trivial
  | resolve controller result => trivial
  | reject controller message => trivial

theorem timely_of_exclusive {s : State} (hs : Base s) {input : Input}
    (h : Exclusive (step s input)) : Timely s input := by
  obtain ⟨world, event⟩ := input
  cases event with
  | fire timer =>
    intro hid c hc
    obtain ⟨p, hp, -⟩ := List.any_eq_true.mp hid
    have htarget := hs.timers.target p hp
    have henabled := hs.timers.enabled p hp
    have hsuspended := hs.timers.suspended p hp
    cases haborted : c.aborted with
    | true => rfl
    | false =>
      exfalso
      have hcalls : (step s ⟨world, .fire timer⟩).inFlight
          = ⟨s.controllers, p.target, s.targetGeneration, false⟩ :: s.inFlight := by
        show (s.fire timer).inFlight = _
        unfold State.fire State.runWake
        rw [if_pos hid]
        simp only [htarget, henabled, hsuspended]
        rfl
      have hmem : c ∈ s.inFlight.filter (!·.aborted) := by
        rw [List.mem_filter]
        exact ⟨hc, by simp [haborted]⟩
      have hpos := List.length_pos_of_mem hmem
      rw [Exclusive, hcalls, List.filter_cons_of_pos (by rfl), List.length_cons] at h
      omega
  | _ => trivial

theorem holds_of_guarded {s : State} {inputs : List Input} (hs : Base s) (ho : Owned s)
    (h : Run.Guarded step Timely s inputs) : Holds s inputs := by
  induction inputs generalizing s with
  | nil => exact ho.exclusive hs.calls
  | cons input inputs ih =>
    exact ⟨ho.exclusive hs.calls, ho.ended hs input, ih (hs.step input) (ho.step h.1) h.2⟩

theorem guarded_of_holds {s : State} {inputs : List Input} (hs : Base s)
    (h : Holds s inputs) : Run.Guarded step Timely s inputs := by
  induction inputs generalizing s with
  | nil => trivial
  | cons input inputs ih =>
    obtain ⟨-, -, hrest⟩ := h
    have hnext : Exclusive (step s input) := by
      cases inputs with
      | nil => exact hrest
      | cons _ _ => exact hrest.1
    exact ⟨timely_of_exclusive hs hnext, ih (hs.step input) hrest⟩

/-- **The calls and timers are kept as they should be in exactly the runs in which no timer fires
while a call is in flight that is not aborted.** -/
theorem holds_iff_timely (enabled : Bool) (inputs : List Input) :
    Holds (initial enabled) inputs ↔ Run.Guarded step Timely (initial enabled) inputs := by
  have hcalls : AllAborted (initial enabled) := fun _ hc => absurd hc List.not_mem_nil
  have hbase : Base (initial enabled) :=
    ⟨.of_nil rfl, fun _ hc => absurd hc List.not_mem_nil, List.nodup_nil⟩
  exact ⟨guarded_of_holds hbase, holds_of_guarded hbase hcalls.owned⟩

/-! ### A target that is set again -/

def chat : CacheWarmTarget := ⟨"/project", "session", "anthropic", "model", none, .off⟩

def tick (event : Event) : Input := ⟨⟨0, fun _ => some 3300000⟩, event⟩

/-- The target is set again while its first call is in flight, and a second call starts. -/
theorem holds_fails : ¬ ∀ (enabled : Bool) (inputs : List Input), Holds (initial enabled) inputs := by
  intro h
  let inputs := [tick (.setTarget (some chat)), tick (.fire 0), tick (.setTarget (some chat)),
    tick (.fire 1)]
  have hlast : Exclusive (inputs.foldl step (initial true)) := (h true inputs).2.2.2.2.2.2.2.2
  exact absurd hlast (by decide)

end ThreeXhaust.Runtime.CacheWarm
