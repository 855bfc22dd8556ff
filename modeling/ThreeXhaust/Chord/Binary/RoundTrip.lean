import ThreeXhaust.Chord.Binary.Carries

/-!
# The binary codec's round trip

Each kind of message is carried (`encodeFields_carries`) unless it is a failure whose delay is
the largest safe integer, which the writer adds one to and the reader then refuses, or a payload
has segments without the part they belong to, which the writer leaves out.
-/

namespace ThreeXhaust.Chord

open Json Reader

/-! ## Sizes

What bounds the lengths of a message is far above what an engine holds: a text takes less than
16 GiB, a byte array less than `2 ^ 52` bytes and a list has fewer than `2 ^ 52` elements, so
that every length prefix, doubled or shifted, is still a safe integer. -/

def Body.strings : Body → List String
  | .hold fields => [fields.type, fields.address.kind]
  | _ => []

def Body.texts (body : Body) : List String := body.strings ++ body.json.map Value.stringify

def Body.parts : Body → List Part
  | .hold fields => [fields.params]
  | .call _ _ _ args _ => args.toList
  | .bound holds => holds.flatMap fun h => h.members.map (·.value)
  | .state holds => holds.flatMap fun h => h.members.map (·.ops)
  | .result _ value _ => value.toList
  | _ => []

def Body.segments : Body → List Bytes
  | .call _ _ _ _ segments => segments.getD []
  | .result _ _ segments => segments.getD []
  | _ => []

def Body.counts : Body → List Nat
  | .bound holds => holds.length :: holds.flatMap fun h => [h.members.length, h.failed.length]
  | .state holds => holds.length ::
      holds.flatMap fun h => [h.members.length, h.failed.length, h.retired.length]
  | body => [body.segments.length]

/-- The texts, parts, segments and lists of a message an engine can hold. -/
structure Body.Sized (body : Body) : Prop where
  texts : ∀ s ∈ body.texts, (utf8 s).length < Binary.textLimit
  parts : ∀ p ∈ body.parts, Binary.PartSized p
  segments : ∀ b ∈ body.segments, b.length < Binary.bytesLimit
  counts : ∀ n ∈ body.counts, n < Binary.bytesLimit

/-- The bodies the codec carries. -/
def Body.Carried : Body → Prop
  | .failed _ _ retryIn => retryIn ≠ some maxSafeInteger
  | .call _ _ _ args segments => args = none → segments = none
  | .result _ value segments => value = none → segments = none
  | _ => True

namespace Binary

theorem safe_of_lt {n : Nat} (h : n < bytesLimit) : n ≤ maxSafeInteger := by
  simp only [bytesLimit, maxSafeInteger] at *
  omega

/-! ## Payloads -/

theorem carries_payload_none (segments : Option (List Bytes)) :
    Carries (payload none segments) Read.payload (none, none) :=
  (carries_varint (Nat.zero_le _)).last (Reads.pure _)

/-- The segments, their lengths in front of them. -/
theorem carries_segments {segments : List Bytes} (hcount : segments.length < bytesLimit)
    (hsized : ∀ b ∈ segments, b.length < bytesLimit) {k : List Bytes → Reader α} {a : α}
    (hk : Reads (k segments) [] a) :
    Carries (do
        varint segments.length
        each (fun segment => varint segment.length) segments
        each raw segments)
      (do
        let lengths ← Read.list Read.varint
        let segments ← Read.takeEach lengths
        k segments) a := by
  refine Carries.list List.length segments (safe_of_lt hcount) rfl
    (fun b hb => carries_varint (safe_of_lt (hsized b hb))) ?_
  have hraw : Writes (each raw segments) segments.flatten := by
    rw [← List.flatMap_id']
    exact Writes.each segments fun b _ => raw_writes b
  exact ⟨_, hraw, (Read.reads_takeEach segments).last hk⟩

/-- A part and its segments. -/
theorem carries_payload {p : Part} {segments : Option (List Bytes)} (hp : PartSized p)
    (hcount : (segments.getD []).length < bytesLimit)
    (hsized : ∀ b ∈ segments.getD [], b.length < bytesLimit) :
    Carries (payload (some p) segments) Read.payload (some p.received, segments) := by
  cases segments with
  | none =>
    refine (carries_varint (n := present) (by decide)).bind ?_
    rw [if_neg (by decide)]
    refine Carries.ensure (by decide) ((carries_part hp).bind ?_)
    rw [if_pos rfl]
    exact Carries.pure _
  | some segments =>
    refine (carries_varint (n := present ||| segmentsFlag) (by decide)).bind ?_
    rw [if_neg (by decide)]
    refine Carries.ensure (by decide) ((carries_part hp).bind ?_)
    rw [if_neg (by decide)]
    exact carries_segments hcount hsized (Reads.pure _)

/-! ## Failures -/

structure FailedCarried (entries : List FailedMember) : Prop where
  count : entries.length < bytesLimit
  members : ∀ n ∈ FailedMember.integers entries, n ≤ maxSafeInteger
  json : ∀ v ∈ FailedMember.json entries, v.IsJson
  texts : ∀ v ∈ FailedMember.json entries, (utf8 v.stringify).length < textLimit

theorem FailedCarried.member {entries : List FailedMember} (h : FailedCarried entries)
    {f : FailedMember} (hf : f ∈ entries) :
    Carries (failedMember f) Read.failedMember f := by
  have hn : f.member ≤ maxSafeInteger := h.members _ (List.mem_map_of_mem hf)
  have hv : f.error ∈ FailedMember.json entries := List.mem_map_of_mem hf
  exact (carries_varint hn).bind ((carries_json (h.json _ hv) (h.texts _ hv)).last
    (Reads.pure _))

theorem FailedCarried.entries {entries : List FailedMember} (h : FailedCarried entries) :
    Carries (each failedMember entries) (Read.failedEntries entries.length) entries := by
  obtain ⟨bytes, hw, hlen, hr⟩ := Carries.elements id entries rfl
    fun f hf => h.member hf
  rw [List.map_id] at hr
  exact ⟨bytes, hw, Read.reads_left hr hlen⟩

/-- The members that failed. -/
theorem FailedCarried.carries {entries : List FailedMember} (h : FailedCarried entries) :
    Carries (failed entries) Read.failed entries :=
  (carries_varint (safe_of_lt h.count)).bind h.entries

/-! ## Holds -/

/-- A field whose flag says whether it is there. -/
theorem carries_optional {write : α → Write Unit} {read : Reader α} {x : Option α}
    {flags flag : Nat} (hflag : flags &&& flag ≠ 0 ↔ x.isSome = true)
    (h : ∀ a ∈ x, Carries (write a) read a) :
    Carries (optional write x) (Read.optional flags flag read) x := by
  cases x with
  | none =>
    rw [Read.optional, if_neg (fun hf => by simpa using hflag.1 hf)]
    exact Carries.pure _
  | some a =>
    rw [Read.optional, if_pos (hflag.2 rfl)]
    exact (h a rfl).map some

/-- Each flag of a hold says whether its field is there. -/
theorem holdFlags_bits (h : Hold) :
    holdFlags h ≤ principalFlag ||| incarnationFlag ||| chainFlag ||| limitFlag ∧
      (holdFlags h &&& principalFlag ≠ 0 ↔ h.principal.isSome = true) ∧
      (holdFlags h &&& incarnationFlag ≠ 0 ↔ h.incarnation.isSome = true) ∧
      (holdFlags h &&& chainFlag ≠ 0 ↔ h.chain.isSome = true) ∧
      (holdFlags h &&& limitFlag ≠ 0 ↔ h.limit.isSome = true) := by
  obtain ⟨_, _, _, _, _, _, principal, incarnation, chain, limit⟩ := h
  cases principal <;> cases incarnation <;> cases chain <;> cases limit <;>
    simp [holdFlags, principalFlag, incarnationFlag, chainFlag, limitFlag]

theorem carries_chain {chain : List String} (hcount : chain.length ≤ maxChain)
    (h : ∀ s ∈ chain, isIncarnation s = true) :
    Carries (encodeChain chain) (Read.list Read.incarnation) chain := by
  have hsafe : chain.length ≤ maxSafeInteger := by
    simp only [maxChain, maxSafeInteger] at *
    omega
  have hlist := carries_list id chain hsafe rfl
    fun s hs => carries_incarnation (h s hs)
  rwa [List.map_id] at hlist

structure HoldCarried (h : Hold) : Prop where
  check : h.check = true
  integers : ∀ n ∈ h.integers, n ≤ maxSafeInteger
  json : ∀ v ∈ h.address.params :: h.principal.toList, v.IsJson
  jsonTexts : ∀ v ∈ h.address.params :: h.principal.toList, (utf8 v.stringify).length < textLimit
  type : (utf8 h.type).length < textLimit
  kind : (utf8 h.address.kind).length < textLimit
  params : PartSized h.params

/-- **A hold**, with the fields its flags announce. -/
theorem HoldCarried.carries {h : Hold} (hc : HoldCarried h) :
    Carries (encodeHold h) Read.decodeHold { h with params := h.params.received } := by
  have hcheck := hc.check
  simp only [Hold.check, Bool.and_eq_true, decide_eq_true_eq] at hcheck
  obtain ⟨⟨⟨⟨-, hfinger⟩, -⟩, hincarnation⟩, hchain⟩ := hcheck
  have hhold : h.hold ≤ maxSafeInteger := hc.integers _ (by simp [Hold.integers])
  have hversion : h.version ≤ maxSafeInteger := hc.integers _ (by simp [Hold.integers])
  have hlimit : ∀ n ∈ h.limit, n ≤ maxSafeInteger := fun n hn =>
    hc.integers n (by simp [Hold.integers, Option.mem_def.mp hn])
  have hmem : ∀ v ∈ h.principal, v ∈ h.address.params :: h.principal.toList := by
    intro v hv
    simp [Option.mem_def.mp hv]
  obtain ⟨hflags, hbit1, hbit2, hbit3, hbit4⟩ := holdFlags_bits h
  have hfinger : matchesGroups [2 * 8] h.fingerprint.toList = true := hfinger
  obtain ⟨hhex, htext⟩ := carries_hex hfinger
  refine (carries_varint hhold).bind ((carries_string hc.type).bind
    ((carries_varint hversion).bind (hhex.bind ((carries_part hc.params).bind
      ((carries_string hc.kind).bind ?_)))))
  refine (carries_json (hc.json _ List.mem_cons_self)
    (hc.jsonTexts _ List.mem_cons_self)).bind ?_
  refine (carries_byte (Nat.lt_of_le_of_lt hflags (by decide))).bind ?_
  refine Carries.ensure hflags ?_
  refine (carries_optional hbit1 fun v hv =>
    carries_json (hc.json v (hmem v hv)) (hc.jsonTexts v (hmem v hv))).bind ?_
  refine (carries_optional hbit2 fun s hs => carries_incarnation ?_).bind ?_
  · rwa [Option.mem_def.mp hs] at hincarnation
  refine (carries_optional hbit3 fun chain hmem => ?_).bind ?_
  · rw [Option.mem_def.mp hmem] at hchain
    simp only [Option.all_some, Bool.and_eq_true, decide_eq_true_eq, List.all_eq_true] at hchain
    exact carries_chain hchain.1 hchain.2
  refine (carries_optional hbit4 fun n hn => carries_varint (hlimit n hn)).last ?_
  rw [htext, String.ofList_toList]
  exact Reads.pure _

theorem carries_bound_member {m : BoundMember} (hn : m.member ≤ maxSafeInteger)
    (hp : PartSized m.value) :
    Carries (encodeBoundMember m) Read.decodeBoundMember
      { m with value := m.value.received } :=
  (carries_varint hn).bind ((carries_part hp).last (Reads.pure _))

theorem carries_state_member {m : StateMember} (hn : m.member ≤ maxSafeInteger)
    (hp : PartSized m.ops) :
    Carries (encodeStateMember m) Read.decodeStateMember { m with ops := m.ops.received } :=
  (carries_varint hn).bind ((carries_part hp).last (Reads.pure _))

/-- One hold of a `bound` message. -/
theorem carries_bound_entry {h : BoundEntry} (hhold : h.hold ≤ maxSafeInteger)
    (hvariant : h.variant ≤ maxSafeInteger) (hcount : h.members.length < bytesLimit)
    (hmembers : ∀ m ∈ h.members, m.member ≤ maxSafeInteger)
    (hparts : ∀ m ∈ h.members, PartSized m.value) (hfailed : FailedCarried h.failed) :
    Carries (encodeBoundEntry h) Read.decodeBoundEntry h.received :=
  (carries_varint hhold).bind ((carries_varint hvariant).bind
    (Carries.list _ h.members (safe_of_lt hcount) rfl
      (fun m hm => carries_bound_member (hmembers m hm) (hparts m hm))
      (hfailed.carries.last (Reads.pure _))))

/-- The members that failed and those that retired. -/
theorem carries_failedAndRetired {entries : List FailedMember} {retired : List Nat}
    (hfailed : FailedCarried entries) (hcount : retired.length < bytesLimit)
    (hretired : ∀ n ∈ retired, n ≤ maxSafeInteger) {k : List FailedMember → List Nat → Reader β}
    {b : β} (hk : Reads (k entries retired) [] b) :
    Carries (failedAndRetired entries retired) (do
      let flags ← Read.varint
      let failed ← Read.failedEntries (flags / 2)
      let retired ← Read.retired flags
      k failed retired) b := by
  have hsafe : entries.length * 2 + (if 0 < retired.length then 1 else 0) ≤ maxSafeInteger := by
    have := hfailed.count
    simp only [bytesLimit, maxSafeInteger] at *
    split <;> omega
  have hhalf : (entries.length * 2 + (if 0 < retired.length then 1 else 0)) / 2 =
      entries.length := by
    split <;> omega
  refine (carries_varint hsafe).bind ?_
  rw [hhalf]
  refine hfailed.entries.bind ?_
  cases retired with
  | nil =>
    rw [if_pos List.length_nil, Read.retired, if_pos (by simp)]
    exact ⟨[], Writes.pure, (Reads.pure ([] : List Nat)).bind hk⟩
  | cons n rest =>
    rw [if_neg (by simp), Read.retired, if_neg (by simp)]
    have hlist := carries_list id (n :: rest) (safe_of_lt hcount) rfl
      (fun n hn => carries_varint (hretired n hn))
    rw [List.map_id] at hlist
    exact hlist.last hk

/-- One hold of a `state` message. -/
theorem carries_state_entry {h : StateEntry} (hhold : h.hold ≤ maxSafeInteger)
    (hcount : h.members.length < bytesLimit)
    (hmembers : ∀ m ∈ h.members, m.member ≤ maxSafeInteger)
    (hparts : ∀ m ∈ h.members, PartSized m.ops) (hfailed : FailedCarried h.failed)
    (hretiredCount : h.retired.length < bytesLimit)
    (hretired : ∀ n ∈ h.retired, n ≤ maxSafeInteger) :
    Carries (encodeStateEntry h) Read.decodeStateEntry h.received :=
  (carries_varint hhold).bind
    (Carries.list _ h.members (safe_of_lt hcount) rfl
      (fun m hm => carries_state_member (hmembers m hm) (hparts m hm))
      (carries_failedAndRetired hfailed hretiredCount hretired (Reads.pure _)))

/-! ## Messages -/

structure BodyCarried (body : Body) : Prop where
  check : body.check = true
  integers : ∀ n ∈ body.integers, n ≤ maxSafeInteger
  json : ∀ v ∈ body.json, v.IsJson
  sized : body.Sized

theorem BodyCarried.jsonText {body : Body} (h : BodyCarried body) {v : Value}
    (hv : v ∈ body.json) : (utf8 v.stringify).length < textLimit :=
  h.sized.texts _ (List.mem_append_right _ (List.mem_map_of_mem hv))

theorem BodyCarried.json_field {body : Body} (h : BodyCarried body) {v : Value}
    (hv : v ∈ body.json) : Carries (Binary.json v) Read.json v :=
  carries_json (h.json v hv) (h.jsonText hv)

theorem BodyCarried.hold {fields : Hold} (h : BodyCarried (.hold fields)) :
    HoldCarried fields where
  check := h.check
  integers := h.integers
  json := h.json
  jsonTexts := fun _ hv => h.jsonText hv
  type := h.sized.texts _ (by simp [Body.texts, Body.strings])
  kind := h.sized.texts _ (by simp [Body.texts, Body.strings])
  params := h.sized.parts _ (by simp [Body.parts])

theorem BodyCarried.bound_entry {holds : List BoundEntry} (hb : BodyCarried (.bound holds))
    {h : BoundEntry} (hh : h ∈ holds) :
    Carries (encodeBoundEntry h) Read.decodeBoundEntry h.received := by
  have hn : ∀ n ∈ h.hold :: h.variant ::
      (h.members.map (·.member) ++ FailedMember.integers h.failed), n ≤ maxSafeInteger :=
    fun n hn => hb.integers n (List.mem_flatMap.mpr ⟨h, hh, hn⟩)
  have hcount : ∀ n ∈ [h.members.length, h.failed.length], n < bytesLimit :=
    fun n hn => hb.sized.counts n (List.mem_cons_of_mem _ (List.mem_flatMap.mpr ⟨h, hh, hn⟩))
  have hjson : ∀ v ∈ FailedMember.json h.failed, v ∈ (Body.bound holds).json :=
    fun v hv => List.mem_flatMap.mpr ⟨h, hh, hv⟩
  apply carries_bound_entry
  · exact hn _ (by simp)
  · exact hn _ (by simp)
  · exact hcount _ (by simp)
  · exact fun m hm => hn _ (by simp; exact .inr (.inr (.inl ⟨m, hm, rfl⟩)))
  · exact fun m hm => hb.sized.parts _
      (List.mem_flatMap.mpr ⟨h, hh, List.mem_map_of_mem hm⟩)
  · exact {
      count := hcount _ (by simp)
      members := fun n hf => hn n (by simp [hf])
      json := fun v hv => hb.json v (hjson v hv)
      texts := fun v hv => hb.jsonText (hjson v hv) }

theorem BodyCarried.state_entry {holds : List StateEntry} (hb : BodyCarried (.state holds))
    {h : StateEntry} (hh : h ∈ holds) :
    Carries (encodeStateEntry h) Read.decodeStateEntry h.received := by
  have hn : ∀ n ∈ h.hold :: (h.members.map (·.member) ++ FailedMember.integers h.failed ++
      h.retired), n ≤ maxSafeInteger :=
    fun n hn => hb.integers n (List.mem_flatMap.mpr ⟨h, hh, hn⟩)
  have hcount : ∀ n ∈ [h.members.length, h.failed.length, h.retired.length], n < bytesLimit :=
    fun n hn => hb.sized.counts n (List.mem_cons_of_mem _ (List.mem_flatMap.mpr ⟨h, hh, hn⟩))
  have hjson : ∀ v ∈ FailedMember.json h.failed, v ∈ (Body.state holds).json :=
    fun v hv => List.mem_flatMap.mpr ⟨h, hh, hv⟩
  apply carries_state_entry
  · exact hn _ (by simp)
  · exact hcount _ (by simp)
  · exact fun m hm => hn _ (by simp; exact .inr (.inl ⟨m, hm, rfl⟩))
  · exact fun m hm => hb.sized.parts _
      (List.mem_flatMap.mpr ⟨h, hh, List.mem_map_of_mem hm⟩)
  · exact {
      count := hcount _ (by simp)
      members := fun n hf => hn n (by simp [hf])
      json := fun v hv => hb.json v (hjson v hv)
      texts := fun v hv => hb.jsonText (hjson v hv) }
  · exact hcount _ (by simp)
  · exact fun n hr => hn n (by simp [hr])

theorem BodyCarried.payload {body : Body} (hb : BodyCarried body) {p : Option Part}
    {segments : Option (List Bytes)} (hparts : body.parts = p.toList)
    (hsegments : body.segments = segments.getD [])
    (hcounts : body.segments.length ∈ body.counts) (hpresent : p = none → segments = none) :
    Carries (payload p segments) Read.payload (p.map Part.received, segments) := by
  have hsized := hb.sized
  cases p with
  | none =>
    rw [hpresent rfl]
    exact carries_payload_none none
  | some p =>
    rw [hsegments] at hcounts
    have hsegmentSized := hsized.segments
    rw [hsegments] at hsegmentSized
    exact carries_payload (hsized.parts p (by simp [hparts])) (hsized.counts _ hcounts)
      hsegmentSized

theorem causeKinds_idxOf (kind : CauseKind) :
    causeKinds[causeKinds.idxOf kind]? = some kind ∧ causeKinds.idxOf kind < 256 := by
  cases kind <;> decide

theorem carries_delay {retryIn : Option Nat} (hn : ∀ n ∈ retryIn, n < maxSafeInteger)
    (k : Option Nat → α) :
    Carries (varint (delayField retryIn)) (do
      let n ← Read.varint
      pure (k (if n = 0 then none else some (n - 1)))) (k retryIn) := by
  cases retryIn with
  | none => exact (carries_varint (Nat.zero_le _)).last (Reads.pure _)
  | some delay => exact (carries_varint (hn delay rfl)).last (Reads.pure _)

theorem encodeFields_carries {body : Body} (hb : BodyCarried body) (hc : body.Carried) :
    Carries (encodeFields body) (Read.decodeFields body.kind) body.received := by
  have hn := hb.integers
  have hcheck := hb.check
  cases body with
  | hello protocol incarnation calls =>
    have hincarnation : isIncarnation incarnation = true := by
      simp only [Body.check, Bool.and_eq_true] at hcheck
      exact hcheck.1
    exact (carries_varint (hn _ (by simp [Body.integers]))).bind
      ((carries_incarnation hincarnation).bind
        ((carries_varint (hn _ (by simp [Body.integers]))).last (Reads.pure _)))
  | hold fields => exact hb.hold.carries.last (Reads.pure _)
  | release hold => exact (carries_varint (hn _ List.mem_cons_self)).last (Reads.pure _)
  | loading hold => exact (carries_varint (hn _ List.mem_cons_self)).last (Reads.pure _)
  | abort call => exact (carries_varint (hn _ List.mem_cons_self)).last (Reads.pure _)
  | retry hold hops =>
    exact (carries_varint (hn _ (by simp [Body.integers]))).bind
      ((carries_varint (hn _ (by simp [Body.integers]))).last (Reads.pure _))
  | call call hold method args segments =>
    exact (carries_varint (hn _ (by simp [Body.integers]))).bind
      ((carries_varint (hn _ (by simp [Body.integers]))).bind
        ((carries_varint (hn _ (by simp [Body.integers]))).bind
          ((hb.payload rfl rfl List.mem_cons_self hc).last (Reads.pure _))))
  | result call value segments =>
    exact (carries_varint (hn _ List.mem_cons_self)).bind
      ((hb.payload rfl rfl List.mem_cons_self hc).last (Reads.pure _))
  | bound holds =>
    exact (carries_list _ holds (safe_of_lt (hb.sized.counts _ List.mem_cons_self)) rfl
      fun h hh => hb.bound_entry hh).last (Reads.pure _)
  | state holds =>
    exact (carries_list _ holds (safe_of_lt (hb.sized.counts _ List.mem_cons_self)) rfl
      fun h hh => hb.state_entry hh).last (Reads.pure _)
  | failed hold cause retryIn =>
    obtain ⟨hkind, hcode⟩ := causeKinds_idxOf cause.kind
    have hdelay : ∀ n ∈ retryIn, n < maxSafeInteger := by
      intro n hmem
      obtain rfl := Option.mem_def.mp hmem
      refine Nat.lt_of_le_of_ne (hn n (by simp [Body.integers])) ?_
      rintro rfl
      exact hc rfl
    exact (carries_varint (hn _ (by simp [Body.integers]))).bind ((carries_byte hcode).bind
      (Carries.lookup hkind ((hb.json_field List.mem_cons_self).bind
        (carries_delay hdelay (Body.failed hold cause)))))
  | error call error =>
    exact (carries_varint (hn _ List.mem_cons_self)).bind
      ((hb.json_field List.mem_cons_self).last (Reads.pure _))
  | gone hold error =>
    exact (carries_varint (hn _ List.mem_cons_self)).bind
      ((hb.json_field List.mem_cons_self).last (Reads.pure _))
  | revoke revocation => exact (hb.json_field List.mem_cons_self).last (Reads.pure _)
  | ack => exact Carries.pure _
  | closed => exact Carries.pure _
  | ping => exact Carries.pure _
  | pong => exact Carries.pure _

theorem kind_bits (kind : Kind) :
    kinds.idxOf kind ||| originFlag < 256 ∧ kinds.idxOf kind < 256 ∧
      (kinds.idxOf kind ||| originFlag) &&& originFlag ≠ 0 ∧
      kinds.idxOf kind &&& originFlag = 0 ∧
      kinds[(kinds.idxOf kind ||| originFlag) &&& 0x7f]? = some kind ∧
      kinds[kinds.idxOf kind &&& 0x7f]? = some kind := by
  cases kind <;> decide

variable {m : Message}

theorem encodeHead_carries (h : ∀ n ∈ m.origin, n ≤ maxSafeInteger) :
    Carries (encodeHead m) Read.decodeHead (m.origin, m.body.kind) := by
  obtain ⟨origin, body⟩ := m
  obtain ⟨hbyte, hbyte', hset, hunset, hlookup, hlookup'⟩ := kind_bits body.kind
  cases origin with
  | none =>
    refine (carries_byte hbyte').last ?_
    rw [Read.optional, if_neg (fun hf => hf hunset)]
    have hreads := (Read.reads_some hlookup').last
      (k := fun kind => (pure (none, kind) : Reader (Option Nat × Kind))) (Reads.pure _)
    exact (Reads.pure (none : Option Nat)).bind hreads
  | some origin =>
    refine (carries_byte hbyte).bind ?_
    rw [Read.optional, if_pos hset]
    refine ((carries_varint (h origin rfl)).map some).last ?_
    exact (Read.reads_some hlookup).last (Reads.pure _)

theorem encode_eq {bytes : Bytes} (h : Writes (encodeMessage m) bytes) : encode m = some bytes := by
  obtain ⟨spare, hrun⟩ := h [] (List.replicate 256 0)
  have hnew : Writer.new = .holding [] (List.replicate 256 0) := rfl
  rw [encode, hnew, hrun]
  exact congrArg some (Writer.holding_finish _ _)

theorem decode_run {front fields : Bytes} {origin : Option Nat} {kind : Kind}
    (h : Reads Read.decodeHead front (origin, kind)) :
    decode (front ++ fields) = (Read.decodeFields kind fields).bind fun r =>
      if r.2 = [] then some { origin := origin <|> Read.fieldsOrigin r.1, body := r.1 } else none := by
  have hrun := h.bind_run (fun r => do
    let body ← Read.decodeFields r.2
    Reader.ensure ((← Reader.left) = 0)
    pure ({ origin := r.1 <|> Read.fieldsOrigin body, body } : Message)) fields
  show Option.map Prod.fst (Read.decodeMessage (front ++ fields)) = _
  rw [show Read.decodeMessage (front ++ fields) = _ from hrun]
  show Option.map Prod.fst (StateT.bind (Read.decodeFields kind) _ fields) = _
  unfold StateT.bind
  cases hfields : Read.decodeFields kind fields with
  | none => rfl
  | some r =>
    obtain ⟨body, rest⟩ := r
    cases rest with
    | nil => rfl
    | cons b rest => rfl

theorem round_trip_of (hcheck : checkMessage m = true)
    (horigin : ∀ n ∈ m.origin, n ≤ maxSafeInteger)
    (h : Carries (encodeFields m.body) (Read.decodeFields m.body.kind) m.body.received) :
    ∃ bytes, encode m = some bytes ∧ decode bytes = some m.received := by
  obtain ⟨front, hfrontWrites, hfrontReads⟩ := encodeHead_carries horigin
  obtain ⟨fields, hwrites, hreads⟩ := h
  refine ⟨front ++ fields, encode_eq (hfrontWrites.bind hwrites), ?_⟩
  have hrun := hreads []
  rw [List.append_nil] at hrun
  have horiginBack : (m.origin <|> Read.fieldsOrigin m.body.received) = m.origin := by
    obtain ⟨origin, body⟩ := m
    cases origin with
    | some origin => rfl
    | none =>
      cases body with
      | closed => cases hcheck
      | _ => rfl
  rw [decode_run hfrontReads, hrun]
  show (if ([] : Bytes) = [] then some _ else none) = _
  rw [if_pos rfl]
  simp only [horiginBack]
  rfl

theorem failed_refused {origin : Option Nat} {hold : Nat} {cause : Cause}
    (hb : BodyCarried (.failed hold cause (some maxSafeInteger)))
    (horigin : ∀ n ∈ origin, n ≤ maxSafeInteger) :
    ∃ bytes, encode ⟨origin, .failed hold cause (some maxSafeInteger)⟩ = some bytes ∧
      decode bytes = none := by
  obtain ⟨front, hfrontWrites, hfrontReads⟩ := encodeHead_carries
    (m := ⟨origin, .failed hold cause (some maxSafeInteger)⟩) horigin
  obtain ⟨hkind, hcode⟩ := causeKinds_idxOf cause.kind
  have hhold : hold ≤ maxSafeInteger := hb.integers _ (by simp [Body.integers])
  obtain ⟨a, hwa, hra⟩ := carries_varint hhold
  obtain ⟨b, hwb, hrb⟩ := carries_byte hcode
  obtain ⟨c, hwc, hrc⟩ := hb.json_field List.mem_cons_self
  have hdelay : maxSafeInteger + 1 < 128 ^ (7 + 1) := by decide
  have hwrites : Writes (encodeFields (.failed hold cause (some maxSafeInteger)))
      (a ++ (b ++ (c ++ varintBytes (maxSafeInteger + 1)))) :=
    hwa.bind (hwb.bind (hwc.bind (varint_writes (maxSafeInteger + 1) hdelay)))
  have hrefusedVarint := Read.varint_refused (Nat.lt_succ_self maxSafeInteger) hdelay []
  rw [List.append_nil] at hrefusedVarint
  have hrefused : Read.decodeFields .failed
      (a ++ (b ++ (c ++ varintBytes (maxSafeInteger + 1)))) = none := by
    have hlookup := (Read.reads_some hkind).bind_run (fun kind => do
      let error ← Read.json
      let n ← Read.varint
      pure (Body.failed hold { kind, error } (if n = 0 then none else some (n - 1))))
      (c ++ varintBytes (maxSafeInteger + 1))
    refine (hra.bind_run _ _).trans ((hrb.bind_run _ _).trans (hlookup.trans ?_))
    refine (hrc.bind_run _ _).trans ?_
    show StateT.bind Read.varint _ _ = _
    unfold StateT.bind
    rw [hrefusedVarint]
    rfl
  refine ⟨_, encode_eq (hfrontWrites.bind hwrites), ?_⟩
  rw [decode_run hfrontReads]
  show Option.bind (Read.decodeFields .failed _) _ = none
  rw [hrefused]
  rfl

theorem encode_call_segments (origin : Option Nat) (call hold method : Nat)
    (segments : Option (List Bytes)) :
    encode ⟨origin, .call call hold method none segments⟩ =
      encode ⟨origin, .call call hold method none none⟩ := rfl

theorem encode_result_segments (origin : Option Nat) (call : Nat)
    (segments : Option (List Bytes)) :
    encode ⟨origin, .result call none segments⟩ = encode ⟨origin, .result call none none⟩ := rfl

/-- Encoding and decoding gives the message back, and the schema accepts it. -/
def RoundTrips (m : Message) : Prop :=
  ∃ bytes, encode m = some bytes ∧ decode bytes = some m.received ∧
    checkMessage m.received = true

theorem roundTrips_of_carried (hcheck : checkMessage m = true)
    (horigin : ∀ n ∈ m.origin, n ≤ maxSafeInteger) (hb : BodyCarried m.body) (hc : m.body.Carried)
    : RoundTrips m := by
  obtain ⟨bytes, hencode, hdecode⟩ := round_trip_of hcheck horigin (encodeFields_carries hb hc)
  exact ⟨bytes, hencode, hdecode, (checkMessage_received m).trans hcheck⟩

theorem not_roundTrips {m' : Message} (hsame : encode m = encode m') (h : RoundTrips m')
    (hne : m.received ≠ m'.received) : ¬ RoundTrips m := by
  rintro ⟨bytes, hencode, hdecode, -⟩
  obtain ⟨bytes', hencode', hdecode', -⟩ := h
  rw [hsame, hencode'] at hencode
  cases hencode
  rw [hdecode'] at hdecode
  exact hne (Option.some.inj hdecode).symm

theorem bodyCarried_of (hcheck : checkMessage m = true) (hsafe : m.SafeIntegers)
    (hjson : m.JsonData) (hsized : m.body.Sized) :
    BodyCarried m.body ∧ ∀ n ∈ m.origin, n ≤ maxSafeInteger := by
  simp only [checkMessage, Bool.and_eq_true] at hcheck
  refine ⟨⟨hcheck.2, fun n hn => hsafe n (List.mem_append_right _ hn), hjson, hsized⟩, ?_⟩
  intro n hn
  exact hsafe n (List.mem_append_left _ (Option.mem_toList.mpr hn))

theorem bodyCarried_empty {body : Body} (hcheck : body.check = true)
    (hn : ∀ n ∈ body.integers, n ≤ maxSafeInteger) (hjson : body.json = [])
    (hstrings : body.strings = []) (hparts : body.parts = []) (hsegments : body.segments = [])
    (hcounts : body.counts = [body.segments.length]) : BodyCarried body where
  check := hcheck
  integers := hn
  json := by simp [hjson]
  sized := {
    texts := by simp [Body.texts, hjson, hstrings]
    parts := by simp [hparts]
    segments := by simp [hsegments]
    counts := by simp [hcounts, hsegments, bytesLimit] }

/-- **The round trip of the binary codec**: exactly the messages of `Body.Carried` come back. -/
theorem binaryCodec_roundTrips (m : Message) (hcheck : checkMessage m = true)
    (hsafe : m.SafeIntegers) (hjson : m.JsonData) (hsized : m.body.Sized) :
    RoundTrips m ↔ m.body.Carried := by
  obtain ⟨hb, horigin⟩ := bodyCarried_of hcheck hsafe hjson hsized
  refine ⟨fun h => ?_, roundTrips_of_carried hcheck horigin hb⟩
  obtain ⟨origin, body⟩ := m
  by_contra hc
  cases body with
  | failed hold cause retryIn =>
    have hmax : retryIn = some maxSafeInteger := not_not.mp hc
    subst hmax
    obtain ⟨bytes, hencode, hdecode, -⟩ := h
    obtain ⟨bytes', hencode', hnone⟩ := failed_refused hb horigin
    rw [hencode'] at hencode
    cases hencode
    rw [hnone] at hdecode
    cases hdecode
  | call call hold method args segments =>
    obtain ⟨rfl, hsegments⟩ := Classical.not_imp.mp hc
    have hplain : RoundTrips ⟨origin, .call call hold method none none⟩ :=
      roundTrips_of_carried hcheck horigin
        (bodyCarried_empty hb.check hb.integers rfl rfl rfl rfl rfl) fun _ => rfl
    refine not_roundTrips (encode_call_segments origin call hold method segments) hplain ?_ h
    intro heq
    cases heq
    exact hsegments rfl
  | result call value segments =>
    obtain ⟨rfl, hsegments⟩ := Classical.not_imp.mp hc
    have hplain : RoundTrips ⟨origin, .result call none none⟩ :=
      roundTrips_of_carried hcheck horigin
        (bodyCarried_empty hb.check hb.integers rfl rfl rfl rfl rfl) fun _ => rfl
    refine not_roundTrips (encode_result_segments origin call segments) hplain ?_ h
    intro heq
    cases heq
    exact hsegments rfl
  | _ => exact hc trivial

def sampleCall : Message :=
  { origin := some 3, body := .call 1 2 0 (some (.text "[]")) (some [[7], []]) }

theorem binaryCodec_roundTrips_sampleCall : RoundTrips sampleCall := by
  refine (binaryCodec_roundTrips sampleCall (by decide) ?_ ?_ ?_).2 nofun
  · intro n hn
    simp [sampleCall, Body.integers] at hn
    rcases hn with rfl | rfl | rfl | rfl <;> decide
  · intro v hv
    exact absurd hv List.not_mem_nil
  · constructor
    · exact fun s hs => absurd hs List.not_mem_nil
    · intro p hp
      obtain rfl := List.mem_singleton.mp hp
      show (utf8 "[]").length < textLimit
      decide
    · intro b hb
      have hall : ∀ b ∈ ([[7], []] : List Bytes), b.length < bytesLimit := by decide
      exact hall b hb
    · intro n hn
      obtain rfl := List.mem_singleton.mp hn
      decide

def sampleError : Value :=
  .obj [("kind", .str "chord"), ("error", .null)]

def longDelay : Message :=
  { origin := none, body := .failed 0 ⟨.transient, sampleError⟩ (some maxSafeInteger) }

theorem longDelay_lost :
    checkMessage longDelay = true ∧ longDelay.SafeIntegers ∧ longDelay.JsonData ∧
      longDelay.body.Sized ∧ ¬ RoundTrips longDelay := by
  have hcheck : checkMessage longDelay = true := by decide
  have hsafe : longDelay.SafeIntegers := by
    intro n hn
    simp [longDelay, Body.integers] at hn
    rcases hn with rfl | rfl <;> decide
  have hjson : longDelay.JsonData := by
    intro v hv
    obtain rfl := List.mem_singleton.mp hv
    simp [sampleError, Value.IsJson, Value.IsJsonFields]
  have hsized : longDelay.body.Sized := by
    constructor
    · intro s hs
      obtain rfl := List.mem_singleton.mp hs
      show (utf8 sampleError.stringify).length < textLimit
      decide
    · exact fun p hp => absurd hp List.not_mem_nil
    · exact fun b hb => absurd hb List.not_mem_nil
    · intro n hn
      obtain rfl := List.mem_singleton.mp hn
      decide
  obtain ⟨hb, horigin⟩ := bodyCarried_of hcheck hsafe hjson hsized
  refine ⟨hcheck, hsafe, hjson, hsized, ?_⟩
  rintro ⟨bytes, hencode, hdecode, -⟩
  obtain ⟨bytes', hencode', hnone⟩ := failed_refused hb horigin
  have hsame : encode longDelay = some bytes' := hencode'
  rw [hsame] at hencode
  cases hencode
  rw [hnone] at hdecode
  cases hdecode

end Binary
end ThreeXhaust.Chord
