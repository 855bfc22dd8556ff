import ThreeXhaust.Ai.TransformMessages
import Mathlib.Data.List.TakeWhile

/-!
# The transcript a provider is sent

What `transformMessages` makes of a conversation, turn by turn. A turn is an assistant message with
the tool results and the system messages behind it.
-/

namespace ThreeXhaust.Ai

structure Target where
  model : Model
  normalizeToolCallId : Option (String → Model → AssistantMessage → String)

variable {t : Target}

/-! ## What has to hold of a conversation -/

/-- Each result answers a call that is open: one of the latest assistant message, with no user
message since, that has no result yet. No message has an id twice. -/
def Answered : List String → List Message → Prop
  | _, [] => True
  | openIds, .system _ :: rest => Answered openIds rest
  | _, .user _ :: rest => Answered [] rest
  | _, .assistant a :: rest =>
    a.callIds.Nodup ∧ Answered (if a.failed then [] else a.callIds) rest
  | openIds, .toolResult r :: rest =>
    r.toolCallId ∈ openIds ∧ Answered (openIds.erase r.toolCallId) rest

/-! ## What is sent -/

variable (t) in
/-- A message as the first pass sees it: with content, and without images the model does not
take. -/
def seen (m : Message) : Message :=
  if t.model.takesImages then normalizeContent m else downgradeMessage (normalizeContent m)

def AssistantMessage.seen (a : AssistantMessage) : AssistantMessage :=
  { a with content := some (a.content.getD []) }

variable (t) in
def ToolResultMessage.seen (r : ToolResultMessage) : ToolResultMessage :=
  let content := r.content.getD []
  { r with content := some (if t.model.takesImages then content else
      replaceImagesWithPlaceholder content nonVisionToolImagePlaceholder) }

variable (t) in
def sentId (a : AssistantMessage) (id : String) : String :=
  normalizedId t.model t.normalizeToolCallId a.seen id

variable (t) in
def sent (a : AssistantMessage) : AssistantMessage :=
  let blocks := (transformBlocks t.model t.normalizeToolCallId a.seen [] (a.content.getD [])).2
  { a with content := some blocks }

variable (t) in
/-- What the message adds to the id map, the latest entry first. -/
def renamed (a : AssistantMessage) : IdMap :=
  (transformBlocks t.model t.normalizeToolCallId a.seen [] (a.content.getD [])).1

variable (t) in
def ownResult (a : AssistantMessage) (r : ToolResultMessage) : ToolResultMessage :=
  { ToolResultMessage.seen t r with toolCallId := sentId t a r.toolCallId }

def Message.result? : Message → Option ToolResultMessage
  | .toolResult r => some r
  | _ => none

def Message.isSystem : Message → Bool
  | .system _ => true
  | _ => false

/-- What may stand between an assistant message and the end of its turn. -/
def Message.inTurn : Message → Bool
  | .system _ => true
  | .toolResult _ => true
  | _ => false

def results (turn : List Message) : List ToolResultMessage := turn.filterMap Message.result?

def systems (turn : List Message) : List Message := turn.filter Message.isSystem

@[simp] theorem results_nil : results [] = [] := rfl

@[simp] theorem results_system (content : Option Content) (turn : List Message) :
    results (.system content :: turn) = results turn := rfl

@[simp] theorem results_toolResult (r : ToolResultMessage) (turn : List Message) :
    results (.toolResult r :: turn) = r :: results turn := rfl

@[simp] theorem systems_nil : systems [] = [] := rfl

@[simp] theorem systems_system (content : Option Content) (turn : List Message) :
    systems (.system content :: turn) = .system content :: systems turn := rfl

@[simp] theorem systems_toolResult (r : ToolResultMessage) (turn : List Message) :
    systems (.toolResult r :: turn) = systems turn := rfl

variable (t) in
/-- The results that follow an assistant message: those the turn has, in their order, and one for
each call that has none. -/
def answers (a : AssistantMessage) (turn : List Message) : List ToolResultMessage :=
  let own := (results turn).map (ownResult t a)
  own ++ ((sent t a).toolCalls.filter
    (·.id ∉ own.map (·.toolCallId))).map noResult

variable (t) in
/-- What a conversation yields, with each result under the id of its call: all messages in their
order but failed turns, with system messages behind the results of their turn. -/
inductive Yields : List Message → List Message → Prop
  | nil : Yields [] []
  | system {content : Option Content} {rest out : List Message} (h : Yields rest out) :
    Yields (.system content :: rest) (seen t (.system content) :: out)
  | user {content : Option Content} {rest out : List Message} (h : Yields rest out) :
    Yields (.user content :: rest) (seen t (.user content) :: out)
  | failed {a : AssistantMessage} {rest out : List Message} (hfailed : a.failed = true)
    (h : Yields rest out) : Yields (.assistant a :: rest) out
  | turn {a : AssistantMessage} {turn rest out : List Message} (hfailed : a.failed = false)
    (hturn : ∀ m ∈ turn, m.inTurn = true) (hrest : ∀ m ∈ rest.head?, m.inTurn = false)
    (h : Yields rest out) :
    Yields (.assistant a :: (turn ++ rest))
      (.assistant (sent t a)
        :: ((answers t a turn).map .toolResult
          ++ (systems turn).map (seen t) ++ out))

/-- What every provider accepts: results stand only behind an assistant message with calls, and
there is one for each of its calls. -/
inductive Accepted : List Message → Prop
  | nil : Accepted []
  | system {content : Option Content} {rest : List Message} (h : Accepted rest) :
    Accepted (.system content :: rest)
  | user {content : Option Content} {rest : List Message} (h : Accepted rest) :
    Accepted (.user content :: rest)
  | turn {a : AssistantMessage} {answers : List ToolResultMessage} {rest : List Message}
    (hanswers : (answers.map (·.toolCallId)).Perm a.callIds)
    (hrest : ∀ m ∈ rest.head?, m.result? = none) (h : Accepted rest) :
    Accepted (.assistant a :: (answers.map .toolResult ++ rest))

variable (t) in
/-- The id in force for each result is the one its call is sent under: no earlier message renamed
the id and left its entry behind, and the call was not given an empty id. -/
def RightIds : Option AssistantMessage → IdMap → List Message → Prop
  | _, _, [] => True
  | latest, ids, .system _ :: rest => RightIds latest ids rest
  | _, ids, .user _ :: rest => RightIds none ids rest
  | _, ids, .assistant a :: rest =>
    RightIds (if a.failed then none else some a) (renamed t a ++ ids) rest
  | latest, ids, .toolResult r :: rest =>
    (∀ a ∈ latest, idInForce ids r.toolCallId = sentId t a r.toolCallId)
      ∧ RightIds latest ids rest

/-! ## The first pass -/

theorem transformBlock_snd (a : AssistantMessage) (ids : IdMap) (block : Block) :
    transformBlock t.model t.normalizeToolCallId a ids block
      = ((transformBlock t.model t.normalizeToolCallId a [] block).1 ++ ids,
        (transformBlock t.model t.normalizeToolCallId a [] block).2) := by
  cases block with
  | text => rfl
  | thinking =>
    simp only [transformBlock]
    split
    · rfl
    · split
      · rfl
      · split <;> rfl
  | toolCall call =>
    simp only [transformBlock]
    split <;> rfl

theorem transformBlocks_eq (a : AssistantMessage) (ids : IdMap) (blocks : List Block) :
    transformBlocks t.model t.normalizeToolCallId a ids blocks
      = ((transformBlocks t.model t.normalizeToolCallId a [] blocks).1 ++ ids,
        (transformBlocks t.model t.normalizeToolCallId a [] blocks).2) := by
  induction blocks generalizing ids with
  | nil => rfl
  | cons block rest ih =>
    rw [transformBlocks, transformBlocks, transformBlock_snd a ids block]
    simp only
    rw [ih (_ ++ ids), ih (transformBlock t.model t.normalizeToolCallId a [] block).1]
    simp only [List.append_assoc]

theorem toolCalls_transformBlock (a : AssistantMessage) (block : Block) :
    ((transformBlock t.model t.normalizeToolCallId a [] block).2.filterMap Block.toolCall?).map (·.id)
      = (block.toolCall?.toList).map fun call =>
        normalizedId t.model t.normalizeToolCallId a call.id := by
  cases block with
  | text => rfl
  | thinking =>
    simp only [transformBlock]
    split
    · rfl
    · split
      · rfl
      · split <;> rfl
  | toolCall call =>
    simp only [transformBlock]
    split
    · rfl
    · next hsame =>
      rw [not_not] at hsame
      split
      · simp [Block.toolCall?, hsame]
      · simp [Block.toolCall?, hsame]

theorem toolCalls_transformBlocks (a : AssistantMessage) (blocks : List Block) :
    ((transformBlocks t.model t.normalizeToolCallId a [] blocks).2.filterMap Block.toolCall?).map (·.id)
      = (blocks.filterMap Block.toolCall?).map fun call =>
        normalizedId t.model t.normalizeToolCallId a call.id := by
  induction blocks with
  | nil => rfl
  | cons block rest ih =>
    rw [transformBlocks]
    simp only
    rw [transformBlocks_eq, List.filterMap_append, List.map_append, ih, toolCalls_transformBlock]
    cases hcall : block.toolCall? with
    | none => simp [hcall]
    | some call => simp [hcall]

/-- **The calls keep their order** and are sent under their new ids. -/
theorem callIds_sent (a : AssistantMessage) :
    (sent t a).callIds
      = a.callIds.map (sentId t a) := by
  rw [AssistantMessage.callIds, AssistantMessage.toolCalls, sent, Option.getD_some,
    toolCalls_transformBlocks, AssistantMessage.callIds, List.map_map]
  rfl

theorem downgradeUnsupportedImages_eq (messages : List Message) :
    downgradeUnsupportedImages (messages.map normalizeContent) t.model
      = messages.map (seen t) := by
  unfold downgradeUnsupportedImages seen
  split
  · rfl
  · rw [List.map_map]
    rfl

theorem seen_assistant (a : AssistantMessage) : seen t (.assistant a) = .assistant a.seen := by
  unfold seen
  split <;> rfl

theorem seen_toolResult (r : ToolResultMessage) :
    seen t (.toolResult r) = .toolResult (r.seen t) := by
  unfold seen ToolResultMessage.seen
  split <;> rfl

theorem exists_seen_system (content : Option Content) :
    ∃ content', seen t (.system content) = .system content' := by
  unfold seen
  cases content <;> split <;> exact ⟨_, rfl⟩

theorem exists_seen_user (content : Option Content) :
    ∃ content', seen t (.user content) = .user content' := by
  unfold seen
  cases content with
  | none => split <;> exact ⟨_, rfl⟩
  | some content => cases content <;> split <;> exact ⟨_, rfl⟩

theorem transformMessage_assistant (ids : IdMap) (a : AssistantMessage) :
    transformMessage t.model t.normalizeToolCallId ids (seen t (.assistant a))
      = (renamed t a ++ ids,
        .assistant (sent t a)) := by
  rw [seen_assistant, transformMessage, transformBlocks_eq]
  rfl

variable (t) in
def passed (ids : IdMap) (messages : List Message) : List Message :=
  firstPass t.model t.normalizeToolCallId ids (messages.map (seen t))

theorem passed_assistant (ids : IdMap) (a : AssistantMessage) (rest : List Message) :
    passed t ids (.assistant a :: rest)
      = .assistant (sent t a)
        :: passed t (renamed t a ++ ids) rest := by
  rw [passed, List.map_cons, firstPass, transformMessage_assistant]
  rfl

theorem passed_system (ids : IdMap) (content : Option Content) (rest : List Message) :
    passed t ids (.system content :: rest)
      = seen t (.system content) :: passed t ids rest := by
  obtain ⟨content', hseen⟩ := @exists_seen_system t content
  rw [passed, List.map_cons, firstPass, hseen]
  rfl

theorem passed_user (ids : IdMap) (content : Option Content) (rest : List Message) :
    passed t ids (.user content :: rest)
      = seen t (.user content) :: passed t ids rest := by
  obtain ⟨content', hseen⟩ := @exists_seen_user t content
  rw [passed, List.map_cons, firstPass, hseen]
  rfl

variable (t) in
def sentResult (ids : IdMap) (r : ToolResultMessage) : ToolResultMessage :=
  { ToolResultMessage.seen t r with toolCallId := idInForce ids r.toolCallId }

theorem passed_toolResult (ids : IdMap) (r : ToolResultMessage) (rest : List Message) :
    passed t ids (.toolResult r :: rest)
      = .toolResult (sentResult t ids r) :: passed t ids rest := by
  rw [passed, List.map_cons, firstPass, seen_toolResult]
  rfl

/-! ## The second pass -/

def finished (s : Pass) (messages : List Message) : List Message :=
  (messages.foldl Pass.step s).closePendingToolCalls.result

theorem Pass.close_prefix (s : Pass) (front : List Message) :
    { s with result := front ++ s.result }.closePendingToolCalls
      = { s.closePendingToolCalls with result := front ++ s.closePendingToolCalls.result } := by
  simp only [Pass.closePendingToolCalls, List.append_assoc]

theorem Pass.step_prefix (s : Pass) (front : List Message) (m : Message) :
    { s with result := front ++ s.result }.step m
      = { s.step m with result := front ++ (s.step m).result } := by
  cases m with
  | system content =>
    simp only [Pass.step]
    split <;> simp only [List.append_assoc]
  | user content =>
    simp only [Pass.step, Pass.close_prefix, List.append_assoc]
  | assistant a =>
    simp only [Pass.step, Pass.close_prefix]
    split
    · rfl
    · split <;> simp only [List.append_assoc]
  | toolResult r => simp only [Pass.step, List.append_assoc]

theorem finished_prefix (s : Pass) (front messages : List Message) :
    finished { s with result := front ++ s.result } messages = front ++ finished s messages := by
  induction messages generalizing s with
  | nil => exact congrArg Pass.result (Pass.close_prefix s front)
  | cons m rest ih =>
    show finished ({ s with result := front ++ s.result }.step m) rest = front ++ finished _ rest
    rw [Pass.step_prefix]
    exact ih (s.step m)

def idle (existing : List String) : Pass := ⟨[], [], existing, []⟩

theorem finished_of_idle (s : Pass) (hpending : s.pendingToolCalls = [])
    (hheld : s.heldSystemMessages = []) (messages : List Message) :
    finished s messages = s.result ++ finished (idle s.existingToolResultIds) messages := by
  have hidle := finished_prefix (idle s.existingToolResultIds) s.result messages
  rw [← hidle]
  obtain ⟨result, pending, existing, held⟩ := s
  obtain rfl : pending = [] := hpending
  obtain rfl : held = [] := hheld
  show finished _ _ = finished ⟨result ++ [], [], existing, []⟩ messages
  rw [List.append_nil]

theorem finished_closed (s : Pass) {messages : List Message}
    (hhead : ∀ m ∈ messages.head?, m.inTurn = false) :
    finished s messages = s.closePendingToolCalls.result
      ++ finished (idle s.closePendingToolCalls.existingToolResultIds) messages := by
  have hclose : s.closePendingToolCalls.closePendingToolCalls = s.closePendingToolCalls := by
    simp [Pass.closePendingToolCalls]
  have hsame : finished s messages = finished s.closePendingToolCalls messages := by
    cases messages with
    | nil => exact congrArg Pass.result hclose.symm
    | cons m rest =>
      show finished (s.step m) rest = finished (s.closePendingToolCalls.step m) rest
      have hm := hhead m (by rw [List.head?_cons, Option.mem_some])
      cases m with
      | system => cases hm
      | toolResult => cases hm
      | user => simp only [Pass.step, hclose]
      | assistant => simp only [Pass.step, hclose]
  rw [hsame]
  exact finished_of_idle _ rfl rfl messages

theorem finished_turn {ids : IdMap} {rest : List Message} (turn : List Message)
    (hturn : ∀ m ∈ turn, m.inTurn = true) (s : Pass) (hpending : s.pendingToolCalls ≠ []) :
    finished s (passed t ids (turn ++ rest))
      = finished {
          result := s.result ++ ((results turn).map (sentResult t ids)).map .toolResult
          pendingToolCalls := s.pendingToolCalls
          existingToolResultIds :=
            (((results turn).map (sentResult t ids)).map (·.toolCallId)).reverse
              ++ s.existingToolResultIds
          heldSystemMessages := s.heldSystemMessages
            ++ (systems turn).map (seen t) }
          (passed t ids rest) := by
  induction turn generalizing s with
  | nil => simp
  | cons m turn ih =>
    have hrest : ∀ m ∈ turn, m.inTurn = true := fun m hm => hturn m (List.mem_cons_of_mem _ hm)
    have hm := hturn m List.mem_cons_self
    cases m with
    | user => cases hm
    | assistant => cases hm
    | system content =>
      obtain ⟨content', hseen⟩ := @exists_seen_system t content
      rw [List.cons_append, passed_system]
      show finished (s.step _) _ = _
      have hopen : s.pendingToolCalls.isEmpty = false := by simpa using hpending
      rw [hseen, Pass.step, hopen]
      rw [if_neg Bool.false_ne_true, ih hrest ⟨s.result, s.pendingToolCalls,
        s.existingToolResultIds, s.heldSystemMessages ++ [Message.system content']⟩ hpending]
      simp [hseen]
    | toolResult r =>
      rw [List.cons_append, passed_toolResult]
      show finished (s.step _) _ = _
      rw [Pass.step, ih hrest ⟨s.result ++ [Message.toolResult (sentResult t ids r)],
        s.pendingToolCalls, (sentResult t ids r).toolCallId :: s.existingToolResultIds,
        s.heldSystemMessages⟩ hpending]
      simp

theorem finished_systems {ids : IdMap} {rest : List Message} (turn : List Message)
    (hturn : ∀ m ∈ turn, m.inTurn = true) (hresults : results turn = []) (s : Pass)
    (hpending : s.pendingToolCalls = []) :
    finished s (passed t ids (turn ++ rest))
      = finished { s with result := s.result ++ (systems turn).map (seen t) }
          (passed t ids rest) := by
  induction turn generalizing s with
  | nil => simp
  | cons m turn ih =>
    have hrest : ∀ m ∈ turn, m.inTurn = true := fun m hm => hturn m (List.mem_cons_of_mem _ hm)
    have hm := hturn m List.mem_cons_self
    cases m with
    | user => cases hm
    | assistant => cases hm
    | toolResult r => cases hresults
    | system content =>
      obtain ⟨content', hseen⟩ := @exists_seen_system t content
      have hnone : results turn = [] := hresults
      rw [List.cons_append, passed_system]
      show finished (s.step _) _ = _
      rw [hseen, Pass.step, hpending]
      rw [if_pos List.isEmpty_nil, ih hrest hnone ⟨s.result ++ [Message.system content'], [],
        s.existingToolResultIds, s.heldSystemMessages⟩ rfl]
      simp [hseen, List.append_assoc]

/-! ## A whole turn -/

theorem Answered.turn {openIds : List String} {turn rest : List Message}
    (hturn : ∀ m ∈ turn, m.inTurn = true) (hhead : ∀ m ∈ rest.head?, m.inTurn = false)
    (hn : openIds.Nodup) (h : Answered openIds (turn ++ rest)) :
    ((results turn).map (·.toolCallId)).Nodup
      ∧ (∀ id ∈ (results turn).map (·.toolCallId), id ∈ openIds) ∧ Answered [] rest := by
  induction turn generalizing openIds with
  | nil =>
    refine ⟨List.nodup_nil, fun _ hid => absurd hid List.not_mem_nil, ?_⟩
    cases rest with
    | nil => trivial
    | cons m rest =>
      have hm := hhead m (by rw [List.head?_cons, Option.mem_some])
      cases m with
      | system => cases hm
      | toolResult => cases hm
      | user => exact h
      | assistant => exact h
  | cons m turn ih =>
    have hrest : ∀ m ∈ turn, m.inTurn = true := fun m hm => hturn m (List.mem_cons_of_mem _ hm)
    have hm := hturn m List.mem_cons_self
    cases m with
    | user => cases hm
    | assistant => cases hm
    | system content => exact ih hrest hn h
    | toolResult r =>
      obtain ⟨hid, h⟩ := h
      obtain ⟨hnodup, hopen, hanswered⟩ := ih hrest (hn.erase _) h
      refine ⟨?_, ?_, hanswered⟩
      · rw [results_toolResult, List.map_cons, List.nodup_cons]
        refine ⟨fun hmem => ?_, hnodup⟩
        exact hn.not_mem_erase (hopen _ hmem)
      · rw [results_toolResult, List.map_cons, List.forall_mem_cons]
        exact ⟨hid, fun id hmem => List.mem_of_mem_erase (hopen id hmem)⟩

theorem RightIds.turn {latest : Option AssistantMessage} {ids : IdMap} {turn rest : List Message}
    (hturn : ∀ m ∈ turn, m.inTurn = true) (hhead : ∀ m ∈ rest.head?, m.inTurn = false) :
    RightIds t latest ids (turn ++ rest)
      ↔ (∀ r ∈ results turn, ∀ a ∈ latest,
          idInForce ids r.toolCallId = sentId t a r.toolCallId)
        ∧ RightIds t none ids rest := by
  induction turn with
  | nil =>
    have hnone : RightIds t latest ids rest
        ↔ RightIds t none ids rest := by
      cases rest with
      | nil => rfl
      | cons m rest =>
        have hm := hhead m (by rw [List.head?_cons, Option.mem_some])
        cases m with
        | system => cases hm
        | toolResult => cases hm
        | user => rfl
        | assistant => rfl
    rw [List.nil_append, hnone]
    exact ⟨fun h => ⟨fun r hr => absurd hr List.not_mem_nil, h⟩, And.right⟩
  | cons m turn ih =>
    have hm := hturn m List.mem_cons_self
    have ih := ih fun m hm => hturn m (List.mem_cons_of_mem _ hm)
    cases m with
    | user => cases hm
    | assistant => cases hm
    | system content => exact ih
    | toolResult r =>
      rw [List.cons_append, RightIds, ih, results_toolResult, List.forall_mem_cons, and_assoc]

variable (t) in
/-- The results of a turn as they are sent, and one for each call that has none among them. -/
def sentAnswers (ids : IdMap) (a : AssistantMessage) (turn : List Message) :
    List ToolResultMessage :=
  let own := (results turn).map (sentResult t ids)
  own ++ ((sent t a).toolCalls.filter
    (·.id ∉ own.map (·.toolCallId))).map noResult

variable {a : AssistantMessage}

/-- **One turn.** What is sent of it depends on nothing before it but the id map. -/
theorem finished_assistant (hfailed : a.failed = false) {turn rest : List Message}
    (hturn : ∀ m ∈ turn, m.inTurn = true) (hhead : ∀ m ∈ rest.head?, m.inTurn = false)
    (hanswered : Answered a.callIds (turn ++ rest)) (hn : a.callIds.Nodup) (existing : List String)
    (ids : IdMap) :
    ∃ existing', finished (idle existing)
        (passed t ids (.assistant a :: (turn ++ rest)))
      = .assistant (sent t a)
        :: ((sentAnswers t
              (renamed t a ++ ids) a turn).map .toolResult
          ++ (systems turn).map (seen t)
          ++ finished (idle existing') (passed t
            (renamed t a ++ ids) rest)) := by
  have hhead' : ∀ m ∈ (passed t
      (renamed t a ++ ids) rest).head?, m.inTurn = false := by
    cases rest with
    | nil => exact fun m hm => absurd hm (by simp [passed, firstPass])
    | cons m rest =>
      have hm := hhead m (by rw [List.head?_cons, Option.mem_some])
      cases m with
      | system => cases hm
      | toolResult => cases hm
      | user content =>
        obtain ⟨content', hseen⟩ := @exists_seen_user t content
        rw [passed_user, hseen, List.head?_cons]
        rintro m ⟨⟩
        rfl
      | assistant a =>
        rw [passed_assistant, List.head?_cons]
        rintro m ⟨⟩
        rfl
  have hsent : (sent t a).failed = false := hfailed
  rw [passed_assistant]
  show ∃ existing', finished ((idle existing).step _) _ = _
  by_cases hcalls : (sent t a).toolCalls = []
  · -- without calls the turn has no results
    have hids : a.callIds = [] := by
      have hsentIds : (sent t a).callIds = [] := by
        rw [AssistantMessage.callIds, hcalls, List.map_nil]
      rw [callIds_sent] at hsentIds
      exact List.map_eq_nil_iff.mp hsentIds
    obtain ⟨-, hopen, -⟩ := hanswered.turn hturn hhead hn
    have hresults : results turn = [] := by
      rw [← List.map_eq_nil_iff, List.eq_nil_iff_forall_not_mem]
      intro id hid
      rw [hids] at hopen
      exact absurd (hopen id hid) List.not_mem_nil
    have hstep : (idle existing).step (.assistant (sent t a))
        = ⟨[.assistant (sent t a)], [], existing, []⟩ := by
      simp [Pass.step, idle, Pass.closePendingToolCalls, hsent, hcalls]
    refine ⟨existing, ?_⟩
    rw [hstep, finished_systems turn hturn hresults _ rfl, finished_of_idle _ rfl rfl]
    simp [sentAnswers, hresults, hcalls]
  · have hstep : (idle existing).step (.assistant (sent t a))
        = ⟨[.assistant (sent t a)],
          (sent t a).toolCalls, [], []⟩ := by
      simp [Pass.step, idle, Pass.closePendingToolCalls, hsent, hcalls]
    rw [hstep, finished_turn turn hturn _ hcalls, finished_closed _ hhead']
    refine ⟨[], ?_⟩
    have hopen : (sent t a).toolCalls.isEmpty = false := by
      simpa using hcalls
    simp only [Pass.closePendingToolCalls, sentAnswers, List.append_assoc, List.nil_append,
      List.cons_append, List.append_nil, List.mem_reverse, List.map_append, List.map_map, hopen,
      Bool.false_eq_true, if_false]

/-! ## A whole conversation -/

theorem finished_idle_system (existing : List String) (ids : IdMap) (content : Option Content)
    (rest : List Message) :
    finished (idle existing) (passed t ids (.system content :: rest))
      = seen t (.system content)
        :: finished (idle existing) (passed t ids rest) := by
  obtain ⟨content', hseen⟩ := @exists_seen_system t content
  rw [passed_system, hseen]
  show finished ⟨[.system content'], [], existing, []⟩ _ = _
  rw [finished_of_idle _ rfl rfl]
  rfl

theorem finished_idle_user (existing : List String) (ids : IdMap) (content : Option Content)
    (rest : List Message) :
    finished (idle existing) (passed t ids (.user content :: rest))
      = seen t (.user content)
        :: finished (idle existing) (passed t ids rest) := by
  obtain ⟨content', hseen⟩ := @exists_seen_user t content
  rw [passed_user, hseen]
  show finished ⟨[.user content'], [], existing, []⟩ _ = _
  rw [finished_of_idle _ rfl rfl]
  rfl

theorem finished_idle_failed (hfailed : a.failed = true) (existing : List String) (ids : IdMap)
    (rest : List Message) :
    finished (idle existing) (passed t ids (.assistant a :: rest))
      = finished (idle existing)
        (passed t (renamed t a ++ ids) rest) := by
  have hsent : (sent t a).failed = true := hfailed
  rw [passed_assistant]
  show finished ((idle existing).step _) _ = _
  rw [Pass.step, hsent]
  rfl

theorem sentResults_eq_iff (ids : IdMap) (a : AssistantMessage) (turn : List Message) :
    (results turn).map (sentResult t ids)
        = (results turn).map (ownResult t a)
      ↔ ∀ r ∈ results turn,
        idInForce ids r.toolCallId = sentId t a r.toolCallId := by
  rw [List.map_inj_left]
  refine forall₂_congr fun r _ => ?_
  rw [sentResult, ownResult, ToolResultMessage.mk.injEq]
  exact ⟨fun h => h.1, fun h => ⟨h, rfl, rfl, rfl⟩⟩

theorem sentAnswers_append_eq_iff (ids : IdMap) (a : AssistantMessage) (turn : List Message)
    (after out : List Message) :
    (sentAnswers t ids a turn).map .toolResult ++ after
        = (answers t a turn).map .toolResult ++ out
      ↔ (∀ r ∈ results turn,
          idInForce ids r.toolCallId = sentId t a r.toolCallId)
        ∧ after = out := by
  rw [← sentResults_eq_iff]
  constructor
  · intro heq
    have hown : (results turn).map (sentResult t ids)
        = (results turn).map (ownResult t a) := by
      have hfront := heq
      rw [sentAnswers, answers, List.map_append, List.map_append, List.append_assoc,
        List.append_assoc] at hfront
      have := (List.append_inj hfront (by simp only [List.length_map])).1
      exact List.map_injective_iff.mpr (fun _ _ => Message.toolResult.inj) this
    refine ⟨hown, ?_⟩
    have hanswers : sentAnswers t ids a turn
        = answers t a turn := by
      rw [sentAnswers, answers, hown]
    rw [hanswers] at heq
    exact List.append_cancel_left heq
  · rintro ⟨hown, rfl⟩
    rw [sentAnswers, answers, hown]

theorem turn_split (messages : List Message) :
    ∃ turn rest, messages = turn ++ rest ∧ (∀ m ∈ turn, m.inTurn = true)
      ∧ ∀ m ∈ rest.head?, m.inTurn = false := by
  refine ⟨messages.takeWhile (·.inTurn), messages.dropWhile (·.inTurn),
    List.takeWhile_append_dropWhile.symm, fun m hm => ?_, fun m hm => ?_⟩
  · exact List.mem_takeWhile_imp hm
  · have := List.head?_dropWhile_not (·.inTurn) messages
    rw [Option.mem_def.mp hm] at this
    simpa using this

theorem turn_unique {turn turn' rest rest' : List Message} (heq : turn ++ rest = turn' ++ rest')
    (hturn : ∀ m ∈ turn, m.inTurn = true) (hhead : ∀ m ∈ rest.head?, m.inTurn = false)
    (hturn' : ∀ m ∈ turn', m.inTurn = true) (hhead' : ∀ m ∈ rest'.head?, m.inTurn = false) :
    turn = turn' ∧ rest = rest' := by
  induction turn generalizing turn' with
  | nil =>
    cases turn' with
    | nil => exact ⟨rfl, heq⟩
    | cons m turn' =>
      rw [List.nil_append] at heq
      subst heq
      have hfalse := hhead m (by rw [List.cons_append, List.head?_cons, Option.mem_some])
      rw [hturn' m List.mem_cons_self] at hfalse
      cases hfalse
  | cons m turn ih =>
    cases turn' with
    | nil =>
      rw [List.nil_append] at heq
      subst heq
      have hfalse := hhead' m (by rw [List.cons_append, List.head?_cons, Option.mem_some])
      rw [hturn m List.mem_cons_self] at hfalse
      cases hfalse
    | cons m' turn' =>
      rw [List.cons_append, List.cons_append, List.cons.injEq] at heq
      obtain ⟨rfl, heq⟩ := heq
      obtain ⟨rfl, hrest⟩ := ih heq (fun m hm => hturn m (List.mem_cons_of_mem _ hm))
        (fun m hm => hturn' m (List.mem_cons_of_mem _ hm))
      exact ⟨rfl, hrest⟩

variable {out : List Message}

theorem Yields.turn_iff (hfailed : a.failed = false) {turn rest : List Message}
    (hturn : ∀ m ∈ turn, m.inTurn = true) (hhead : ∀ m ∈ rest.head?, m.inTurn = false) :
    Yields t (.assistant a :: (turn ++ rest)) out
      ↔ ∃ out', out = .assistant (sent t a)
          :: ((answers t a turn).map .toolResult
            ++ (systems turn).map (seen t) ++ out')
        ∧ Yields t rest out' := by
  constructor
  · intro h
    generalize hmessages : Message.assistant a :: (turn ++ rest) = messages at h
    cases h with
    | nil => cases hmessages
    | system => cases hmessages
    | user => cases hmessages
    | failed htrue =>
      cases hmessages
      rw [hfailed] at htrue
      cases htrue
    | turn _ hturn' hhead' h =>
      rw [List.cons.injEq, Message.assistant.injEq] at hmessages
      obtain ⟨rfl, heq⟩ := hmessages
      obtain ⟨rfl, rfl⟩ := turn_unique heq hturn hhead hturn' hhead'
      exact ⟨_, rfl, h⟩
  · rintro ⟨out', rfl, h⟩
    exact .turn hfailed hturn hhead h

/-- **A whole conversation** is sent as it should be where the right ids are in force. -/
theorem yields_iff (existing : List String) (ids : IdMap) (messages : List Message)
    (h : Answered [] messages) :
    Yields t messages
        (finished (idle existing) (passed t ids messages))
      ↔ RightIds t none ids messages := by
  induction hlength : messages.length using Nat.strong_induction_on
    generalizing existing ids messages with
  | _ n ih =>
  cases messages with
  | nil => exact ⟨fun _ => trivial, fun _ => .nil⟩
  | cons m rest =>
    rw [List.length_cons] at hlength
    have hlt : rest.length < n := by omega
    cases m with
    | system content =>
      rw [finished_idle_system, RightIds, ← ih rest.length hlt existing ids rest h rfl]
      constructor
      · intro hyields
        generalize hout : seen t (.system content) :: finished _ _ = out at hyields
        cases hyields with
        | system hyields =>
          rw [List.cons.injEq] at hout
          rw [hout.2]
          exact hyields
      · exact .system
    | user content =>
      rw [finished_idle_user, RightIds, ← ih rest.length hlt existing ids rest h rfl]
      constructor
      · intro hyields
        generalize hout : seen t (.user content) :: finished _ _ = out at hyields
        cases hyields with
        | user hyields =>
          rw [List.cons.injEq] at hout
          rw [hout.2]
          exact hyields
      · exact .user
    | toolResult r => exact absurd h.1 List.not_mem_nil
    | assistant a =>
      obtain ⟨hn, h⟩ := h
      cases hfailed : a.failed with
      | true =>
        rw [hfailed, if_pos rfl] at h
        rw [finished_idle_failed hfailed, RightIds, hfailed, if_pos rfl,
          ← ih rest.length hlt existing _ rest h rfl]
        constructor
        · intro hyields
          generalize finished _ _ = out at hyields
          cases hyields with
          | failed _ hyields => exact hyields
          | turn hfalse =>
            rw [hfailed] at hfalse
            cases hfalse
        · exact .failed hfailed
      | false =>
        rw [hfailed, if_neg Bool.false_ne_true] at h
        obtain ⟨turn, rest, rfl, hturn, hhead⟩ := turn_split rest
        obtain ⟨existing', heq⟩ := @finished_assistant t a hfailed turn
          rest hturn hhead h hn existing ids
        have hshort : rest.length < n := by
          rw [List.length_append] at hlt
          omega
        have hrest := (h.turn hturn hhead hn).2.2
        rw [heq, Yields.turn_iff hfailed hturn hhead, RightIds, hfailed,
          if_neg Bool.false_ne_true, RightIds.turn hturn hhead,
          ← ih rest.length hshort existing' _ rest hrest rfl]
        have hlatest : (∀ r ∈ results turn, ∀ b ∈ some a,
              idInForce (renamed t a ++ ids) r.toolCallId
                = sentId t b r.toolCallId)
            ↔ ∀ r ∈ results turn,
              idInForce (renamed t a ++ ids) r.toolCallId
                = sentId t a r.toolCallId := by
          refine forall₂_congr fun r _ => ⟨fun hb => hb a rfl, fun hb b hsome => ?_⟩
          obtain rfl := Option.mem_some.mp hsome
          exact hb
        rw [hlatest]
        constructor
        · rintro ⟨out, hout, hyields⟩
          rw [List.cons.injEq, List.append_assoc, List.append_assoc,
            sentAnswers_append_eq_iff] at hout
          obtain ⟨-, hids, hafter⟩ := hout
          rw [List.append_cancel_left hafter]
          exact ⟨hids, hyields⟩
        · rintro ⟨hids, hyields⟩
          refine ⟨_, ?_, hyields⟩
          rw [List.cons.injEq, List.append_assoc, List.append_assoc, sentAnswers_append_eq_iff]
          exact ⟨rfl, hids, rfl⟩

/-! ## What a provider accepts -/

theorem perm_completed {own ids : List String} (hown : own.Nodup) (hids : ids.Nodup)
    (hsub : ∀ id ∈ own, id ∈ ids) : (own ++ ids.filter (· ∉ own)).Perm ids := by
  refine (List.perm_ext_iff_of_nodup ?_ hids).mpr fun id => ?_
  · refine List.nodup_append.mpr ⟨hown, hids.filter _, fun x hx y hy hxy => ?_⟩
    rw [List.mem_filter, decide_eq_true_iff] at hy
    exact hy.2 (hxy ▸ hx)
  · rw [List.mem_append, List.mem_filter, decide_eq_true_iff]
    constructor
    · rintro (hmem | ⟨hmem, -⟩)
      · exact hsub id hmem
      · exact hmem
    · intro hmem
      by_cases hid : id ∈ own
      · exact .inl hid
      · exact .inr ⟨hmem, hid⟩

variable (t) in
def Injective (messages : List Message) : Prop :=
  ∀ normalize ∈ t.normalizeToolCallId, ∀ a, Message.assistant a ∈ messages →
    ∀ x ∈ a.callIds, ∀ y ∈ a.callIds, normalize x t.model a.seen = normalize y t.model a.seen → x = y

theorem Injective.sentId {messages : List Message} (h : Injective t messages)
    (ha : .assistant a ∈ messages) {x y : String} (hx : x ∈ a.callIds) (hy : y ∈ a.callIds)
    (heq : sentId t a x = sentId t a y) : x = y := by
  unfold Ai.sentId normalizedId at heq
  cases hnormalize : t.normalizeToolCallId with
  | none =>
    rw [hnormalize] at heq
    exact heq
  | some normalize =>
    rw [hnormalize] at heq
    simp only at heq
    split at heq
    · exact heq
    · exact h normalize hnormalize a ha x hx y hy heq

theorem answers_perm {turn : List Message} (hinj : ∀ x ∈ a.callIds, ∀ y ∈ a.callIds,
      sentId t a x = sentId t a y → x = y) (hn : a.callIds.Nodup)
    (hresults : ((results turn).map (·.toolCallId)).Nodup)
    (hopen : ∀ id ∈ (results turn).map (·.toolCallId), id ∈ a.callIds) :
    ((answers t a turn).map (·.toolCallId)).Perm
      (sent t a).callIds := by
  have hown : ((results turn).map (ownResult t a)).map (·.toolCallId)
      = ((results turn).map (·.toolCallId)).map (sentId t a) := by
    rw [List.map_map, List.map_map]
    rfl
  have hsynthetic (own : List String) (calls : List ToolCall) :
      ((calls.filter (·.id ∉ own)).map noResult).map (·.toolCallId)
        = (calls.map (·.id)).filter (· ∉ own) := by
    rw [List.filter_map, List.map_map]
    rfl
  rw [answers, List.map_append, hsynthetic, hown, ← AssistantMessage.callIds, callIds_sent]
  refine perm_completed ?_ ?_ ?_
  · exact hresults.map_on fun x hx y hy => hinj x (hopen x hx) y (hopen y hy)
  · exact hn.map_on fun x hx y hy => hinj x hx y hy
  · intro id hid
    obtain ⟨x, hx, rfl⟩ := List.mem_map.mp hid
    exact List.mem_map_of_mem (hopen x hx)

theorem Accepted.head (h : Accepted out) : ∀ m ∈ out.head?, m.result? = none := by
  cases h with
  | nil => exact fun m hm => absurd hm (Option.not_mem_none m)
  | system =>
    rintro m ⟨⟩
    rfl
  | user =>
    rintro m ⟨⟩
    rfl
  | turn =>
    rintro m ⟨⟩
    rfl

theorem Accepted.systems {out : List Message} (h : Accepted out) (turn : List Message) :
    Accepted ((systems turn).map (seen t) ++ out) := by
  induction turn with
  | nil => exact h
  | cons m turn ih =>
    cases m with
    | system content =>
      obtain ⟨content', hseen⟩ := @exists_seen_system t content
      rw [systems_system, List.map_cons, hseen]
      exact .system ih
    | user => exact ih
    | assistant => exact ih
    | toolResult => exact ih

/-- **A provider accepts what the conversation yields.** -/
theorem accepted_of_yields {messages : List Message} (h : Yields t messages out)
    (hanswered : Answered [] messages) (hinj : Injective t messages) : Accepted out := by
  induction h with
  | nil => exact .nil
  | @system content rest out _ ih =>
    obtain ⟨content', hseen⟩ := @exists_seen_system t content
    rw [hseen]
    exact .system (ih hanswered fun n hn a ha => hinj n hn a (List.mem_cons_of_mem _ ha))
  | @user content rest out _ ih =>
    obtain ⟨content', hseen⟩ := @exists_seen_user t content
    rw [hseen]
    exact .user (ih hanswered fun n hn a ha => hinj n hn a (List.mem_cons_of_mem _ ha))
  | @failed a rest out hfailed _ ih =>
    obtain ⟨-, hanswered⟩ := hanswered
    rw [hfailed, if_pos rfl] at hanswered
    exact ih hanswered fun n hn a ha => hinj n hn a (List.mem_cons_of_mem _ ha)
  | @turn a turn rest out hfailed hturn hhead hyields ih =>
    obtain ⟨hn, hanswered⟩ := hanswered
    rw [hfailed, if_neg Bool.false_ne_true] at hanswered
    obtain ⟨hresults, hopen, hrest⟩ := hanswered.turn hturn hhead hn
    have haccepted := ih hrest fun n hn a ha =>
      hinj n hn a (List.mem_cons_of_mem _ (List.mem_append_right _ ha))
    have hperm := answers_perm (fun x hx y hy =>
      hinj.sentId List.mem_cons_self hx hy) hn hresults hopen
    have hbehind := @Accepted.systems t _ haccepted turn
    rw [List.append_assoc]
    exact .turn hperm hbehind.head hbehind

def Message.callIds : Message → List String
  | .assistant a => a.callIds
  | _ => []

theorem results_append (front back : List Message) :
    results (front ++ back) = results front ++ results back := List.filterMap_append

theorem results_map_toolResult (answers : List ToolResultMessage) :
    results (answers.map .toolResult) = answers := by
  rw [results, List.filterMap_map]
  exact List.filterMap_some

theorem Accepted.length (h : Accepted out) :
    (results out).length = (out.flatMap Message.callIds).length := by
  induction h with
  | nil => rfl
  | system _ ih => exact ih
  | user _ ih => exact ih
  | @turn a answers rest hperm _ _ ih =>
    have hnone : (answers.map Message.toolResult).flatMap Message.callIds = [] := by
      rw [List.flatMap_eq_nil_iff]
      intro m hm
      obtain ⟨r, -, rfl⟩ := List.mem_map.mp hm
      rfl
    have hlength := hperm.length_eq
    rw [List.length_map] at hlength
    show (results (answers.map Message.toolResult ++ rest)).length = _
    rw [results_append, results_map_toolResult, List.length_append, ih, List.flatMap_cons,
      List.flatMap_append, hnone, List.nil_append, List.length_append, hlength]
    rfl

/-! ## `transformMessages` -/

theorem transformMessages_eq (messages : List Message) (t : Target) :
    transformMessages messages t.model t.normalizeToolCallId
      = finished (idle []) (passed t [] messages) := by
  rw [transformMessages, downgradeUnsupportedImages_eq]
  rfl

/-- **What is sent is the conversation, and a provider accepts it, where the right id is in force
for each result**, and nowhere else: one result for each call, the conversation's own where it has
one, and everything else in its order. -/
theorem transformMessages_iff (messages : List Message) (t : Target)
    (hanswered : Answered [] messages) (hinj : Injective t messages) :
    Yields t messages (transformMessages messages t.model t.normalizeToolCallId)
        ∧ Accepted (transformMessages messages t.model t.normalizeToolCallId)
      ↔ RightIds t none [] messages := by
  rw [transformMessages_eq, ← yields_iff [] [] messages hanswered]
  exact ⟨And.left, fun hyields => ⟨hyields, accepted_of_yields hyields hanswered hinj⟩⟩

def underscored (id : String) (_ : Model) (_ : AssistantMessage) : String :=
  String.ofList (id.toList.map fun c => if c.isAlphanum || c = '_' || c = '-' then c else '_')

/-- A model, and a turn of the model `name` with one call and its result. -/
def asked : Target := ⟨⟨"claude", "anthropic", "messages", true⟩, some underscored⟩

def turnOf (name : String) : List Message :=
  [.assistant ⟨"anthropic", "messages", name, .toolUse, some [.toolCall ⟨"a|b", "read", .null, none⟩]⟩,
    .toolResult ⟨"a|b", "read", some [.text "done" none], false⟩]

theorem injective_turns (names : List String) :
    Injective asked (names.flatMap turnOf) := by
  intro _ _ a ha x hx y hy _
  obtain ⟨name, -, hmem⟩ := List.mem_flatMap.mp ha
  obtain hmem | hmem := List.mem_cons.mp hmem
  · obtain rfl := Message.assistant.inj hmem
    exact (List.eq_of_mem_singleton hx).trans (List.eq_of_mem_singleton hy).symm
  · cases List.eq_of_mem_singleton hmem

theorem answered_turns (names : List String) : Answered [] (names.flatMap turnOf) := by
  have hstep (openIds : List String) : Answered openIds (names.flatMap turnOf) := by
    induction names generalizing openIds with
    | nil => trivial
    | cons name names ih => exact ⟨List.nodup_singleton _, List.mem_cons_self, ih _⟩
  exact hstep []

theorem transformMessages_turn :
    Yields asked (["gpt"].flatMap turnOf)
        (transformMessages (["gpt"].flatMap turnOf) asked.model asked.normalizeToolCallId)
      ∧ Accepted (transformMessages (["gpt"].flatMap turnOf) asked.model asked.normalizeToolCallId) := by
  refine (transformMessages_iff _ asked (answered_turns _)
    (injective_turns _)).mpr ⟨fun a ha => ?_, trivial⟩
  obtain rfl := Option.mem_some.mp ha
  decide +kernel

/-- **An id outlives its turn.** The call the other model made was renamed; the result of a later
call of the model itself, with the same id, is sent under the new name. -/
theorem transformMessages_stale :
    ¬ ∀ (messages : List Message) (t : Target), Answered [] messages → Injective t messages →
      Yields t messages (transformMessages messages t.model t.normalizeToolCallId)
        ∧ Accepted (transformMessages messages t.model t.normalizeToolCallId) := by
  intro h
  have haccepted := (h (["gpt", "claude"].flatMap turnOf) asked
    (answered_turns _) (injective_turns _)).2
  have hresults : (results (transformMessages (["gpt", "claude"].flatMap turnOf) asked.model
      asked.normalizeToolCallId)).length = 3 := by decide +kernel
  have hcalls : ((transformMessages (["gpt", "claude"].flatMap turnOf) asked.model
      asked.normalizeToolCallId).flatMap Message.callIds).length = 2 := by decide +kernel
  rw [Accepted.length haccepted, hcalls] at hresults
  cases hresults

end ThreeXhaust.Ai
