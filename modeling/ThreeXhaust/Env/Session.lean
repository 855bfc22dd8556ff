import Mathlib.Data.List.Forall2
import ThreeXhaust.Env.Frame
import ThreeXhaust.Lib.Chunks

/-!
# The client's end of the env wire protocol

A session keeps what it received as a list of chunks (`peek`, `consume`). Until the sync line of its
daemon arrived it drops everything before it; then `onFrames` takes frame after frame off the
buffer and hands each to the dispatcher. A frame it cannot read ends the session.

What a session holds is a function of the bytes received, not of their chunks: `Reading` says
which frames of a written stream it has dispatched and which bytes it still holds, and `onData`
keeps it (`Reading.onData`).

The callbacks a dispatch runs are not modelled here: a session ends by a corrupt frame only.
-/

namespace ThreeXhaust.Env

structure Token where
  hex : List Char
  length_eq : hex.length = 32
  digits : ∀ c ∈ hex, c ∈ "0123456789abcdef".toList

def marker (token : Token) : Bytes := utf8Chars ("PI-ENV ".toList ++ token.hex ++ ['\n'])

structure Session where
  token : Token
  /-- Received bytes not yet parsed, without concatenating on every chunk. -/
  chunks : List Bytes
  buffered : Nat
  synced : Bool
  /-- What ended the session. -/
  failure : Option String
  /-- The frames handed to the dispatcher, in order. -/
  dispatched : List Message
  /-- What the session logged of the startup noise. -/
  logged : List String

namespace Session

def start (token : Token) : Session := ⟨token, [], 0, false, none, [], []⟩

def live (s : Session) : Bool := s.failure.isNone

def peek (length : Nat) (s : Session) : Option (Bytes × Session) :=
  (Chunks.peek length s.chunks).map fun (bytes, chunks) => (bytes, { s with chunks })

def consume (length : Nat) (s : Session) : Option Session :=
  (Chunks.consume length s.chunks).map fun chunks =>
    { s with chunks, buffered := s.buffered - length }

def teardown (s : Session) (message : String) : Session :=
  if s.live then { s with failure := some message } else s

def dispatch (s : Session) (m : Message) : Session := { s with dispatched := s.dispatched ++ [m] }

def log (s : Session) (text : String) : Session :=
  if text = "" then s else { s with logged := s.logged ++ [text] }

end Session

/-! ## Receiving -/

/-- The frame in `length` bytes, none where the client calls it corrupt. -/
def parseBody (io : Serialisers) (length : Nat) (body : Bytes) : Option Message :=
  let type := (body.headD 0).toNat
  let id := ofBe ((body.drop 1).take 4)
  let jsonLength := ofBe ((body.drop 5).take 4)
  if 9 + jsonLength > length then none
  else
    match io.parse ((body.drop 9).take jsonLength) with
    | some (.obj fields) => some ⟨type, id, .obj fields, body.drop (9 + jsonLength)⟩
    | _ => none

/-- The frame loop of `#onData`: at most `fuel` rounds, none when they do not do. -/
def onFrames (io : Serialisers) : Nat → Session → Option Session
  | 0, _ => none
  | fuel + 1, s =>
    if ¬ (s.live = true ∧ 4 ≤ s.buffered) then some s
    else do
      let (head, s) ← s.peek 4
      let length := ofBe head
      if length < 9 ∨ length > MAX_FRAME then some (s.teardown "Corrupt frame from pi-env")
      else if s.buffered < 4 + length then some s
      else do
        let (bytes, s) ← s.peek (4 + length)
        match parseBody io length (bytes.drop 4) with
        | none => some (s.teardown "Corrupt frame from pi-env")
        | some m => do
          let s ← s.consume (4 + length)
          onFrames io fuel (s.dispatch m)

/-- Skip everything before the sync line of the daemon: shell startup files may print before it
runs. -/
def synchronise (io : Serialisers) (s : Session) : Option Session := do
  let (all, s) ← s.peek s.buffered
  match Chunks.indexOf (marker s.token) all with
  | none =>
    if s.buffered > 1024 * 1024 then s.consume (s.buffered - (marker s.token).length) else some s
  | some index => do
    let s ← (s.log (io.text (all.take index))).consume (index + (marker s.token).length)
    some { s with synced := true }

def Session.push (s : Session) (chunk : Bytes) : Session :=
  { s with chunks := s.chunks ++ [chunk], buffered := s.buffered + chunk.length }

/-- `#onData`: none where it would index past the received chunks. -/
def onData (io : Serialisers) (s : Session) (chunk : Bytes) : Option Session :=
  if s.live = false then some s
  else do
    let s ← if s.synced = true then some (s.push chunk) else synchronise io (s.push chunk)
    if s.synced = true then onFrames io (s.buffered + 1) s else some s

def receive (io : Serialisers) (s : Session) (chunks : List Bytes) : Option Session :=
  chunks.foldlM (onData io) s

/-! ## The buffer -/

namespace Session

def bytes (s : Session) : Bytes := s.chunks.flatten

variable {s : Session}

theorem peek_eq (length : Nat) (h : s.chunks ≠ []) :
    ∃ chunks, s.peek length = some (s.bytes.take length, { s with chunks }) ∧
      chunks.flatten = s.bytes ∧ chunks ≠ [] := by
  obtain ⟨chunks, hrun, hflat, hne⟩ := Chunks.peek_eq length h
  exact ⟨chunks, by rw [peek, hrun]; rfl, hflat, hne⟩

theorem consume_eq (length : Nat) (h : length ≤ s.bytes.length) :
    ∃ chunks, s.consume length = some { s with chunks, buffered := s.buffered - length } ∧
      chunks.flatten = s.bytes.drop length := by
  obtain ⟨chunks, hrun, hflat⟩ := Chunks.consume_eq length h
  exact ⟨chunks, by rw [consume, hrun]; rfl, hflat⟩

@[simp] theorem push_bytes (chunk : Bytes) : (s.push chunk).bytes = s.bytes ++ chunk := by
  simp [push, bytes]

end Session

/-! ## One frame -/

section OneFrame

variable {io : Serialisers} {s : Session} {kind : UInt8} {id : Nat} {json payload more : Bytes}
variable {fields : List (Utf16.Text × Data)}

theorem parseBody_body (hid : id < 2 ^ 32) (hjson : json.length < 2 ^ 32)
    (hparse : io.parse json = some (.obj fields)) :
    parseBody io (9 + json.length + payload.length) (body kind id json payload) =
      some ⟨kind.toNat, id, .obj fields, payload⟩ := by
  simp only [parseBody]
  rw [body_id, body_jsonLength, ofBe_be32 hid, ofBe_be32 hjson, if_neg (by omega), body_json,
    hparse, body_payload]
  rfl

theorem head_layout {bytes behind : Bytes}
    (h : bytes ++ behind = layout kind id json payload ++ more) (hbytes : 4 ≤ bytes.length) :
    bytes.take 4 = be32 (9 + json.length + payload.length) := by
  have htake := congrArg (List.take 4) h
  rw [List.take_append_of_le_length hbytes, layout, List.append_assoc, be32_take] at htake
  exact htake

theorem onFrames_wait (io : Serialisers) (fuel : Nat) {behind : Bytes} (hlive : s.live = true)
    (hbuffered : s.buffered = s.bytes.length)
    (hlength : 9 + json.length + payload.length ≤ MAX_FRAME)
    (h : s.bytes ++ behind = layout kind id json payload ++ more)
    (hless : s.bytes.length < (layout kind id json payload).length) :
    ∃ chunks, chunks.flatten = s.bytes ∧ onFrames io (fuel + 1) s = some { s with chunks } := by
  have hmax : MAX_FRAME < 2 ^ 32 := by decide
  rw [layout_length] at hless
  rw [onFrames]
  by_cases hfour : 4 ≤ s.buffered
  · have hne : s.chunks ≠ [] := Chunks.ne_nil_of_flatten (by
      show 0 < s.bytes.length
      omega)
    obtain ⟨chunks, hpeek, hflat, -⟩ := s.peek_eq 4 hne
    rw [if_neg (not_not.mpr ⟨hlive, hfour⟩), hpeek, head_layout h (by omega)]
    refine ⟨chunks, hflat, ?_⟩
    simp only [Option.bind_eq_bind, Option.bind_some]
    rw [ofBe_be32 (by omega), if_neg (by omega), if_pos (by omega)]
  · rw [if_pos (fun hgo => hfour hgo.2)]
    exact ⟨s.chunks, rfl, rfl⟩

theorem onFrames_next (fuel : Nat) (hlive : s.live = true) (hbuffered : s.buffered = s.bytes.length)
    (hid : id < 2 ^ 32) (hlength : 9 + json.length + payload.length ≤ MAX_FRAME)
    (hparse : io.parse json = some (.obj fields))
    (h : s.bytes = layout kind id json payload ++ more) :
    ∃ chunks, chunks.flatten = more ∧ onFrames io (fuel + 1) s =
      onFrames io fuel ({ s with chunks, buffered := more.length }.dispatch
        ⟨kind.toNat, id, .obj fields, payload⟩) := by
  have hmax : MAX_FRAME < 2 ^ 32 := by decide
  have hlen : s.bytes.length = 4 + (9 + json.length + payload.length) + more.length := by
    rw [h, List.length_append, layout_length]
  have hne : s.chunks ≠ [] := Chunks.ne_nil_of_flatten (by
    show 0 < s.bytes.length
    omega)
  have hhead : s.bytes.take 4 = be32 (9 + json.length + payload.length) :=
    head_layout (by rw [List.append_nil, h]) (by omega)
  have hframe : (s.bytes.take (4 + (9 + json.length + payload.length))).drop 4 =
      body kind id json payload := by
    rw [h, ← layout_length kind id, List.take_left, layout, be32_drop]
  obtain ⟨chunks₁, hpeek₁, hflat₁, hne₁⟩ := s.peek_eq 4 hne
  obtain ⟨chunks₂, hpeek₂, hflat₂, hne₂⟩ :=
    { s with chunks := chunks₁ }.peek_eq
      (4 + (9 + json.length + payload.length)) hne₁
  have hbytes₁ : { s with chunks := chunks₁ }.bytes = s.bytes := hflat₁
  rw [hbytes₁] at hpeek₂ hflat₂
  obtain ⟨chunks₃, hconsume, hflat₃⟩ :=
    { s with chunks := chunks₂ }.consume_eq
      (4 + (9 + json.length + payload.length)) (by
        show _ ≤ chunks₂.flatten.length
        rw [hflat₂]
        omega)
  have hbytes₂ : { s with chunks := chunks₂ }.bytes = s.bytes := hflat₂
  rw [hbytes₂] at hflat₃
  refine ⟨chunks₃, ?_, ?_⟩
  · rw [hflat₃, h, ← layout_length kind id, List.drop_left]
  · rw [onFrames, if_neg (not_not.mpr ⟨hlive, by omega⟩), hpeek₁, hhead]
    simp only [Option.bind_eq_bind, Option.bind_some]
    rw [ofBe_be32 (by omega), if_neg (by omega), if_neg (by omega)]
    simp only [hpeek₂, Option.bind_some]
    rw [hframe, parseBody_body hid (by omega) hparse]
    simp only [hconsume, Option.bind_some]
    rw [hbuffered, hlen, Nat.add_sub_cancel_left]

end OneFrame

/-! ## Frame after frame -/

/-- The bytes of a frame the daemon wrote, which the client can read back. -/
def Written (io : Serialisers) (f : Frame) (bytes : Bytes) : Prop :=
  ∃ json fields, f.json = .obj fields ∧ io.parse json = some (.obj fields) ∧
    9 + json.length + f.payload.length ≤ MAX_FRAME ∧
    bytes = layout f.kind f.id.toNat json f.payload

theorem written_of_writeFrame {io : Serialisers} {f : Frame} {bytes : Bytes}
    (h : writeFrame io f = .ok bytes) (hobject : f.json.isObject = true)
    (hround : ∀ json, io.toVec f.json = some json → io.parse json = some f.json) :
    Written io f bytes := by
  obtain ⟨json, hjson, hlength, hbytes⟩ := writeFrame_eq_ok h
  have hparse := hround json hjson
  cases hf : f.json with
  | obj fields => exact ⟨json, fields, hf, hf ▸ hparse, hlength, hbytes⟩
  | _ =>
    rw [hf] at hobject
    cases hobject

/-- **The frame loop** takes the whole frames off the buffer and leaves the bytes of the one that
has not arrived in full. -/
theorem onFrames_run {io : Serialisers} {frames : List Frame} {wire : List Bytes}
    (hw : List.Forall₂ (Written io) frames wire) (fuel : Nat) (s : Session) (behind : Bytes)
    (hlive : s.live = true) (hbuffered : s.buffered = s.bytes.length) (hfuel : s.buffered < fuel)
    (h : s.bytes ++ behind = wire.flatten) :
    ∃ n chunks, n ≤ frames.length ∧
      onFrames io fuel s = some { s with
        chunks := chunks
        buffered := chunks.flatten.length
        dispatched := s.dispatched ++ (frames.take n).map Frame.message } ∧
      chunks.flatten ++ behind = (wire.drop n).flatten ∧
      ∀ bytes ∈ wire[n]?, chunks.flatten.length < bytes.length := by
  induction hw generalizing fuel s with
  | nil =>
    have hbytes : s.bytes = [] := (List.append_eq_nil_iff.mp h).1
    cases fuel with
    | zero => omega
    | succ fuel =>
      have hzero : s.chunks.flatten.length = 0 := congrArg List.length hbytes
      refine ⟨0, s.chunks, Nat.le_refl 0, ?_, h, by simp⟩
      have hstop : s.buffered = s.chunks.flatten.length := hbuffered
      rw [onFrames, if_pos (fun hgo => by omega), List.take_nil, List.map_nil, List.append_nil,
        ← hstop]
  | @cons f bytes frames wire hf hrest ih =>
    obtain ⟨json, fields, hjson, hparse, hlength, hbytes⟩ := hf
    rw [List.flatten_cons] at h
    cases fuel with
    | zero => omega
    | succ fuel =>
      by_cases hless : s.bytes.length < bytes.length
      · -- the frame in front is not there in full
        obtain ⟨chunks, hflat, hrun⟩ := onFrames_wait io fuel hlive hbuffered
          hlength (hbytes ▸ h) (hbytes ▸ hless)
        refine ⟨0, chunks, Nat.zero_le _, ?_, by rw [hflat, h]; rfl, ?_⟩
        · rw [hrun, List.take_zero, List.map_nil, List.append_nil, hflat, ← hbuffered]
        · intro b hb
          obtain rfl := Option.some.inj hb
          rw [hflat]
          exact hless
      · -- it is: dispatch it and go on
        obtain ⟨more, hmore⟩ : ∃ more, s.bytes = bytes ++ more :=
          (List.prefix_of_prefix_length_le ⟨_, rfl⟩ ⟨_, h⟩ (Nat.not_lt.mp hless)).imp
            fun _ h => h.symm
        obtain ⟨chunks, hflat, hrun⟩ := onFrames_next fuel hlive hbuffered
          f.id.toNat_lt hlength hparse (hbytes ▸ hmore)
        have hlen := congrArg List.length hmore
        rw [List.length_append, hbytes, layout_length] at hlen
        rw [hmore, List.append_assoc, List.append_cancel_left_eq] at h
        obtain ⟨n, chunks', hn, hrun', hstream, hnext⟩ := ih fuel
          (({ s with chunks, buffered := more.length } : Session).dispatch
            ⟨f.kind.toNat, f.id.toNat, .obj fields, f.payload⟩) hlive
          (congrArg List.length hflat.symm) (show more.length < fuel by omega)
          (by
            show chunks.flatten ++ behind = wire.flatten
            rw [hflat]
            exact h)
        refine ⟨n + 1, chunks', Nat.succ_le_succ hn, ?_, hstream, hnext⟩
        rw [hrun, hrun']
        simp [Session.dispatch, Frame.message, hjson]

/-! ## The sync line -/

theorem marker_marked (token : Token) : Chunks.Marked (marker token) := by
  refine ⟨utf8Chars ("PI-ENV ".toList ++ token.hex), 10, ?_, ?_⟩
  · rw [marker, utf8Chars_append]
    rfl
  · apply not_mem_utf8Chars (c := '\n') (by decide)
    intro hmem
    rcases List.mem_append.mp hmem with hmem | hmem
    · exact absurd hmem (by decide)
    · exact absurd (token.digits _ hmem) (by decide)

theorem marker_length_le (token : Token) : (marker token).length ≤ 1024 := by
  have hle : ∀ cs : List Char, (utf8Chars cs).length ≤ 4 * cs.length := by
    intro cs
    induction cs with
    | nil => exact Nat.le_refl 0
    | cons c cs ih =>
      have hc := utf8EncodeChar_length_le c
      rw [utf8Chars_cons, List.length_append, List.length_cons]
      omega
  have h := hle ("PI-ENV ".toList ++ token.hex ++ ['\n'])
  simp only [List.length_append, token.length_eq] at h
  exact Nat.le_trans h (by decide)

section Sync

variable (io : Serialisers) {s : Session} {noise behind stream : Bytes}

/-- **Resynchronising** while the sync line is not all there: what is kept starts in the noise. -/
theorem synchronise_wait (hnoise : ¬ marker s.token <:+: noise) (hne : s.chunks ≠ [])
    (hbuffered : s.buffered = s.bytes.length)
    (h : s.bytes ++ behind = noise ++ marker s.token ++ stream)
    (hless : s.bytes.length < noise.length + (marker s.token).length) :
    ∃ noise' chunks, synchronise io s =
        some { s with chunks, buffered := chunks.flatten.length } ∧
      ¬ marker s.token <:+: noise' ∧
      chunks.flatten ++ behind = noise' ++ marker s.token ++ stream ∧
      chunks.flatten.length < noise'.length + (marker s.token).length ∧
      chunks.flatten.length ≤ 1024 * 1024 := by
  obtain ⟨chunks, hpeek, hflat, -⟩ := s.peek_eq s.buffered hne
  have hindex : Chunks.indexOf (marker s.token) s.bytes = none :=
    (marker_marked s.token).indexOf_of_lt hnoise ⟨behind, h⟩ hless
  have hmarker := marker_length_le s.token
  rw [synchronise, hpeek]
  simp only [Option.bind_eq_bind, Option.bind_some]
  rw [List.take_of_length_le (Nat.le_of_eq hbuffered.symm), hindex]
  by_cases hlong : s.buffered > 1024 * 1024
  · -- keep as many bytes as the sync line has: it may be half received
    rw [if_pos hlong]
    have hflat' : { s with chunks := chunks }.bytes = s.bytes := hflat
    obtain ⟨chunks', hconsume, hdrop⟩ := { s with chunks := chunks }.consume_eq
      (s.buffered - (marker s.token).length) (by rw [hflat']; omega)
    rw [hflat'] at hdrop
    have hkept : chunks'.flatten.length = (marker s.token).length := by
      rw [hdrop, List.length_drop]
      omega
    have hin : s.buffered - (marker s.token).length ≤ noise.length := by omega
    refine ⟨noise.drop (s.buffered - (marker s.token).length), chunks', ?_, ?_, ?_, ?_, by omega⟩
    · rw [hconsume, hkept]
      simp only
      congr 2
      omega
    · exact fun hcut => hnoise (hcut.trans (List.drop_suffix _ _).isInfix)
    · rw [hdrop, ← List.drop_append_of_le_length (by omega), h, List.append_assoc,
        List.drop_append_of_le_length hin, List.append_assoc]
    · rw [hkept, List.length_drop]
      omega
  · rw [if_neg hlong]
    refine ⟨noise, chunks, ?_, hnoise, by rw [hflat, h], by rw [hflat]; exact hless, ?_⟩
    · rw [hflat, ← hbuffered]
    · rw [hflat]
      omega

/-- **Synchronising**: with all of the sync line there, the frames behind it are left. -/
theorem synchronise_found (hnoise : ¬ marker s.token <:+: noise) (hne : s.chunks ≠ [])
    (hbuffered : s.buffered = s.bytes.length)
    (h : s.bytes ++ behind = noise ++ marker s.token ++ stream)
    (hmore : noise.length + (marker s.token).length ≤ s.bytes.length) :
    ∃ chunks logged, synchronise io s = some { s with
        chunks := chunks
        buffered := chunks.flatten.length
        synced := true
        logged := logged } ∧
      chunks.flatten ++ behind = stream := by
  obtain ⟨chunks, hpeek, hflat, -⟩ := s.peek_eq s.buffered hne
  obtain ⟨more, hbytes⟩ : ∃ more, s.bytes = noise ++ marker s.token ++ more :=
    (List.prefix_of_prefix_length_le ⟨_, rfl⟩ ⟨_, h⟩
      (by rw [List.length_append]; exact hmore)).imp fun _ h => h.symm
  have hindex : Chunks.indexOf (marker s.token) s.bytes = some noise.length := by
    rw [hbytes]
    exact (marker_marked s.token).indexOf_append hnoise
  rw [synchronise, hpeek]
  simp only [Option.bind_eq_bind, Option.bind_some]
  rw [List.take_of_length_le (Nat.le_of_eq hbuffered.symm), hindex]
  have hlog : ∀ text, ∃ logged, ({ s with chunks } : Session).log text = { s with chunks, logged } := by
    intro text
    rw [Session.log]
    split
    · exact ⟨s.logged, rfl⟩
    · exact ⟨_, rfl⟩
  obtain ⟨logged, hlogged⟩ := hlog (io.text (s.bytes.take noise.length))
  have hflat' : { s with chunks, logged }.bytes = s.bytes := hflat
  obtain ⟨chunks', hconsume, hdrop⟩ := { s with chunks, logged }.consume_eq
    (noise.length + (marker s.token).length) (by rw [hflat']; exact hmore)
  rw [hflat', hbytes, ← List.length_append, List.drop_left] at hdrop
  rw [hbytes, List.append_assoc, List.append_cancel_left_eq] at h
  refine ⟨chunks', logged, ?_, by rw [hdrop, h]⟩
  simp only [hlogged, hconsume, Option.bind_some]
  rw [hdrop, hbuffered, hbytes, List.length_append, List.length_append, Nat.add_sub_cancel_left]

end Sync

/-! ## A written stream, however it is cut -/

/-- What a session holds when `ahead` is still to come of the noise, the sync line and the frames:
either it waits for the sync line, or it has dispatched the frames that arrived in full and holds
the bytes of the next one. -/
structure Reading (io : Serialisers) (frames : List Frame) (wire : List Bytes) (token : Token)
    (ahead : Bytes) (s : Session) : Prop where
  token_eq : s.token = token
  live : s.live = true
  buffered : s.buffered = s.bytes.length
  waiting : s.synced = false → s.dispatched = [] ∧ s.bytes.length ≤ 1024 * 1024 ∧
    ∃ noise, ¬ marker token <:+: noise ∧
      s.bytes ++ ahead = noise ++ marker token ++ wire.flatten ∧
      s.bytes.length < noise.length + (marker token).length
  framing : s.synced = true → ∃ n, n ≤ frames.length ∧
    s.dispatched = (frames.take n).map Frame.message ∧
    s.bytes ++ ahead = (wire.drop n).flatten ∧
    ∀ bytes ∈ wire[n]?, s.bytes.length < bytes.length

section

variable {io : Serialisers} {frames : List Frame} {wire : List Bytes} {token : Token}

theorem Reading.start {noise : Bytes} (hnoise : ¬ marker token <:+: noise) :
    Reading io frames wire token (noise ++ marker token ++ wire.flatten) (Session.start token) where
  token_eq := rfl
  live := rfl
  buffered := rfl
  waiting := by
    intro _
    refine ⟨rfl, Nat.zero_le _, noise, hnoise, rfl, ?_⟩
    obtain ⟨front, mark, heq, _⟩ := marker_marked token
    rw [heq, List.length_append]
    exact Nat.add_pos_right _ (Nat.succ_pos _)
  framing := by
    intro h
    cases h

variable {s : Session} {ahead : Bytes}

theorem Reading.onFrames (hw : List.Forall₂ (Written io) frames wire) {n : Nat}
    (htoken : s.token = token) (hlive : s.live = true) (hbuffered : s.buffered = s.bytes.length)
    (hsynced : s.synced = true) (hn : n ≤ frames.length)
    (hdispatched : s.dispatched = (frames.take n).map Frame.message)
    (h : s.bytes ++ ahead = (wire.drop n).flatten) :
    ∃ s', Env.onFrames io (s.buffered + 1) s = some s' ∧
      Reading io frames wire token ahead s' := by
  obtain ⟨k, chunks, hk, hrun, hstream, hnext⟩ := onFrames_run (List.forall₂_drop n hw) (s.buffered + 1) s
    ahead hlive hbuffered (Nat.lt_succ_self _) h
  rw [List.length_drop] at hk
  refine ⟨_, hrun, htoken, hlive, rfl, ?_, ?_⟩
  · intro hunsynced
    exact absurd (hsynced.symm.trans hunsynced) (by decide)
  · intro _
    refine ⟨n + k, by omega, ?_, ?_, ?_⟩
    · show s.dispatched ++ ((frames.drop n).take k).map Frame.message = _
      rw [hdispatched, ← List.map_append, ← List.take_add]
    · show chunks.flatten ++ ahead = _
      rw [hstream, List.drop_drop]
    · intro bytes hbytes
      rw [← List.getElem?_drop] at hbytes
      exact hnext bytes hbytes

/-- **One chunk**: a session that reads a written stream goes on reading it. -/
theorem Reading.onData (hw : List.Forall₂ (Written io) frames wire) {chunk : Bytes}
    (h : Reading io frames wire token (chunk ++ ahead) s) :
    ∃ s', Env.onData io s chunk = some s' ∧ Reading io frames wire token ahead s' := by
  obtain ⟨htoken, hlive, hbuffered, hwaiting, hframing⟩ := h
  have hpushed : (s.push chunk).buffered = (s.push chunk).bytes.length := by
    rw [Session.push_bytes, List.length_append, ← hbuffered]
    rfl
  have hne : (s.push chunk).chunks ≠ [] := by simp [Session.push]
  have hnot : ¬ s.live = false := by rw [hlive]; decide
  rw [Env.onData, if_neg hnot]
  cases hsynced : s.synced with
  | true =>
    obtain ⟨n, hn, hdispatched, hstream, -⟩ := hframing hsynced
    rw [if_pos rfl]
    simp only [Option.bind_eq_bind, Option.bind_some]
    rw [if_pos (show (s.push chunk).synced = true from hsynced)]
    exact Reading.onFrames hw htoken hlive hpushed hsynced hn hdispatched
      (by rw [Session.push_bytes, List.append_assoc, hstream])
  | false =>
    obtain ⟨hdispatched, -, noise, hnoise, hstream, -⟩ := hwaiting hsynced
    subst htoken
    have hall : (s.push chunk).bytes ++ ahead =
        noise ++ marker (s.push chunk).token ++ wire.flatten := by
      rw [Session.push_bytes, List.append_assoc, hstream]
      rfl
    rw [if_neg (by decide)]
    by_cases hless : (s.push chunk).bytes.length <
        noise.length + (marker (s.push chunk).token).length
    · -- the sync line is not all there
      obtain ⟨noise', chunks, hrun, hnoise', hstream', hless', hsmall⟩ :=
        synchronise_wait io (s := s.push chunk) hnoise hne hpushed hall hless
      rw [hrun]
      simp only [Option.bind_eq_bind, Option.bind_some]
      rw [if_neg (by
        show ¬ s.synced = true
        rw [hsynced]
        decide)]
      refine ⟨_, rfl, rfl, hlive, rfl, ?_, ?_⟩
      · intro _
        exact ⟨hdispatched, hsmall, noise', hnoise', hstream', hless'⟩
      · intro h
        exact absurd (hsynced.symm.trans h) (by decide)
    · -- it is: read the frames behind it
      obtain ⟨chunks, logged, hrun, hstream'⟩ :=
        synchronise_found io (s := s.push chunk) hnoise hne hpushed hall (Nat.not_lt.mp hless)
      rw [hrun]
      simp only [Option.bind_eq_bind, Option.bind_some]
      rw [if_pos trivial]
      exact Reading.onFrames (n := 0) hw rfl hlive rfl rfl (Nat.zero_le _)
        (by rw [List.take_zero]; exact hdispatched) hstream'

/-- **Any chunks**: by induction over them. -/
theorem Reading.receive (hw : List.Forall₂ (Written io) frames wire) (chunks : List Bytes)
    (h : Reading io frames wire token (chunks.flatten ++ ahead) s) :
    ∃ s', Env.receive io s chunks = some s' ∧ Reading io frames wire token ahead s' := by
  induction chunks generalizing s with
  | nil => exact ⟨s, rfl, h⟩
  | cons chunk chunks ih =>
    rw [List.flatten_cons, List.append_assoc] at h
    obtain ⟨s₁, hrun, h₁⟩ := h.onData hw
    obtain ⟨s₂, hrun', h₂⟩ := ih h₁
    refine ⟨s₂, ?_, h₂⟩
    rw [Env.receive, List.foldlM_cons, hrun]
    exact hrun'

end

/-- **The client** dispatches a written stream frame by frame, however it is cut into chunks. -/
theorem receive_written {io : Serialisers} {token : Token} {noise rest : Bytes}
    {frames : List Frame} {wire chunks : List Bytes} (hnoise : ¬ marker token <:+: noise)
    (hw : List.Forall₂ (Written io) frames wire)
    (h : chunks.flatten ++ rest = noise ++ marker token ++ wire.flatten) :
    ∃ s, receive io (Session.start token) chunks = some s ∧ s.failure = none ∧
      s.buffered = s.bytes.length ∧
      (s.synced = false → s.dispatched = [] ∧ s.bytes.length ≤ 1024 * 1024 ∧
        chunks.flatten.length < noise.length + (marker token).length) ∧
      (s.synced = true → ∃ n, s.dispatched = (frames.take n).map Frame.message ∧
        chunks.flatten = noise ++ marker token ++ (wire.take n).flatten ++ s.bytes ∧
        s.bytes ++ rest = (wire.drop n).flatten ∧
        ∀ bytes ∈ wire[n]?, s.bytes.length < bytes.length) ∧
      (rest = [] → s.dispatched = frames.map Frame.message ∧ s.buffered = 0) := by
  obtain ⟨s, hrun, htoken, hlive, hbuffered, hwaiting, hframing⟩ :=
    Reading.receive hw chunks (s := Session.start token) (by
      rw [h]
      exact Reading.start hnoise)
  have hlen := congrArg List.length h
  simp only [List.length_append] at hlen
  refine ⟨s, hrun, Option.isNone_iff_eq_none.mp hlive, hbuffered, ?_, ?_, ?_⟩
  · intro hsynced
    obtain ⟨hdispatched, hsmall, noise', -, hstream, hless⟩ := hwaiting hsynced
    have hlen' := congrArg List.length hstream
    simp only [List.length_append] at hlen'
    exact ⟨hdispatched, hsmall, by omega⟩
  · intro hsynced
    obtain ⟨n, hn, hdispatched, hstream, hnext⟩ := hframing hsynced
    refine ⟨n, hdispatched, ?_, hstream, hnext⟩
    rw [← List.append_cancel_right_eq _ rest, h, List.append_assoc _ s.bytes, hstream,
      List.append_assoc _ (wire.take n).flatten, ← List.flatten_append, List.take_append_drop]
  · rintro rfl
    rw [List.append_nil] at h
    cases hsynced : s.synced with
    | false =>
      obtain ⟨-, -, noise', -, hstream, hless⟩ := hwaiting hsynced
      rw [List.append_nil] at hstream
      rw [hstream] at hless
      simp only [List.length_append] at hless
      omega
    | true =>
      obtain ⟨n, hn, hdispatched, hstream, hnext⟩ := hframing hsynced
      rw [List.append_nil] at hstream
      have hlengths := hw.length_eq
      cases hnth : wire[n]? with
      | none =>
        -- every frame was dispatched
        rw [List.getElem?_eq_none_iff] at hnth
        rw [List.drop_of_length_le hnth, List.flatten_nil] at hstream
        rw [List.take_of_length_le (by omega)] at hdispatched
        exact ⟨hdispatched, by rw [hbuffered, hstream]; rfl⟩
      | some bytes =>
        -- a frame is missing, yet all its bytes arrived
        obtain ⟨hlt, hget⟩ := List.getElem?_eq_some_iff.mp hnth
        have hless := hnext bytes hnth
        rw [hstream, List.drop_eq_getElem_cons hlt, hget, List.flatten_cons,
          List.length_append] at hless
        omega

/-! ## The daemon's end -/

/-- What the daemon reads of a frame the client built: its strings become well-formed. -/
def Message.received (m : Message) : Message := { m with json := m.json.wellFormed }

/-- **The daemon** reads the frames the client built, and then the end of the input. -/
theorem readFrames_framed {io : Serialisers} {messages : List Message} {wire : List Bytes}
    (hempty : io.fromSlice [] = none)
    (hw : List.Forall₂ (fun m bytes => frame io m = some bytes ∧ bytes.length ≤ 4 + MAX_FRAME)
      messages wire)
    (hround : ∀ m ∈ messages,
      io.fromSlice (io.stringify m.json.wellFormed) = some m.json.wellFormed) :
    ∃ frames : List Frame, readFrames io (messages.length + 1) wire.flatten =
        .ok (frames.map some ++ [none]) ∧
      frames.map Frame.message = messages.map Message.received := by
  induction hw with
  | nil => exact ⟨[], rfl, rfl⟩
  | @cons m bytes messages wire hm hrest ih =>
    obtain ⟨frames, hrun, hmessages⟩ := ih fun m hm => hround m (List.mem_cons_of_mem _ hm)
    have hparse := hround m List.mem_cons_self
    obtain ⟨hbytes, htype, hid⟩ := frame_eq_some hm.1
    have hlength : 9 + (io.stringify m.json.wellFormed).length + m.payload.length ≤ MAX_FRAME := by
      have h := hm.2
      rw [hbytes, layout_length] at h
      omega
    have hjson : io.stringify m.json.wellFormed ≠ [] := by
      intro h
      rw [h, hempty] at hparse
      cases hparse
    refine ⟨⟨UInt8.ofNat m.type, UInt32.ofNat m.id, m.json.wellFormed, m.payload⟩ :: frames, ?_, ?_⟩
    · have hread := readFrame_layout io (UInt8.ofNat m.type) wire.flatten hid
        hlength hjson
      rw [List.length_cons, readFrames, List.flatten_cons, hbytes, hread, hparse]
      show (do
        let more ← readFrames io (messages.length + 1) wire.flatten
        return some _ :: more) = _
      rw [hrun]
      rfl
    · rw [List.map_cons, List.map_cons, hmessages]
      congr 1
      have htype' : (UInt8.ofNat m.type).toNat = m.type := by
        rw [UInt8.toNat_ofNat']
        exact Nat.mod_eq_of_lt htype
      have hid' : (UInt32.ofNat m.id).toNat = m.id := by
        rw [UInt32.toNat_ofNat']
        exact Nat.mod_eq_of_lt hid
      rw [Frame.message, Message.received, htype', hid']

/-- **The wire protocol is read as it was written**, in both directions. From the daemon, after any
startup noise without the sync line and however the stream is cut into chunks: the client
dispatches the frames that arrived in full, in order, holds less than one more frame and never
calls the stream corrupt. From the client, where no object key is ill-formed: the daemon reads the
same frames in order and then the end. -/
theorem frames_read_as_written (io : Serialisers) :
    (∀ (token : Token) (noise rest : Bytes) (frames : List Frame) (wire chunks : List Bytes),
      ¬ marker token <:+: noise →
      List.Forall₂ (fun f bytes => writeFrame io f = .ok bytes) frames wire →
      (∀ f ∈ frames, f.json.isObject = true) →
      (∀ f ∈ frames, ∀ json, io.toVec f.json = some json → io.parse json = some f.json) →
      chunks.flatten ++ rest = noise ++ marker token ++ wire.flatten →
      ∃ s, receive io (Session.start token) chunks = some s ∧ s.failure = none ∧
        s.buffered = s.bytes.length ∧
        (s.synced = false → s.dispatched = [] ∧ s.bytes.length ≤ 1024 * 1024 ∧
          chunks.flatten.length < noise.length + (marker token).length) ∧
        (s.synced = true → ∃ n, s.dispatched = (frames.take n).map Frame.message ∧
          chunks.flatten = noise ++ marker token ++ (wire.take n).flatten ++ s.bytes ∧
          s.bytes ++ rest = (wire.drop n).flatten ∧
          ∀ bytes ∈ wire[n]?, s.bytes.length < bytes.length) ∧
        (rest = [] → s.dispatched = frames.map Frame.message ∧ s.buffered = 0)) ∧
    (∀ (messages : List Message) (wire : List Bytes),
      List.Forall₂ (fun m bytes => frame io m = some bytes ∧ bytes.length ≤ 4 + MAX_FRAME)
        messages wire →
      (∀ m ∈ messages, m.json.KeysWellFormed) →
      io.fromSlice [] = none →
      (∀ m ∈ messages, m.json.wellFormed.IsWellFormed →
        io.fromSlice (io.stringify m.json.wellFormed) = some m.json.wellFormed) →
      ∃ frames : List Frame, readFrames io (messages.length + 1) wire.flatten =
          .ok (frames.map some ++ [none]) ∧
        frames.map Frame.message = messages.map Message.received) := by
  constructor
  · intro token noise rest frames wire chunks hnoise hw hobject hround h
    apply receive_written hnoise _ h
    rw [List.forall₂_iff_get] at hw ⊢
    refine ⟨hw.1, fun i hi hi' => ?_⟩
    have hmem : frames.get ⟨i, hi⟩ ∈ frames := List.get_mem _ _
    exact written_of_writeFrame (hw.2 i hi hi') (hobject _ hmem) (hround _ hmem)
  · intro messages wire hw hkeys hempty hround
    apply readFrames_framed hempty hw
    intro m hm
    exact hround m hm (m.json.isWellFormed_wellFormed (hkeys m hm))

/-! ## One stream -/

def emptyObjects : Serialisers where
  stringify
    | .obj [] => utf8 "\x7b\x7d"
    | _ => utf8 "null"
  parse bytes := if bytes = utf8 "\x7b\x7d" then some (.obj []) else none
  toVec
    | .obj [] => some (utf8 "\x7b\x7d")
    | _ => none
  fromSlice bytes := if bytes = utf8 "\x7b\x7d" then some (.obj []) else none
  text _ := ""

def zeroToken : Token :=
  ⟨List.replicate 32 '0', rfl, fun ch hch => by
    rw [List.eq_of_mem_replicate hch]
    decide⟩

def resultAndPing : List Frame := [⟨2, 7, .obj [], [0, 255, 10]⟩, ⟨6, 0, .obj [], []⟩]

def resultAndPingBytes : List Bytes :=
  [layout 2 7 (utf8 "\x7b\x7d") [0, 255, 10], layout 6 0 (utf8 "\x7b\x7d") []]

theorem frames_read_as_written_resultAndPing :
    (∃ s, receive emptyObjects (Session.start zeroToken)
        [[104], [105, 10] ++ (marker zeroToken).take 20, [],
          (marker zeroToken).drop 20 ++ (resultAndPingBytes.flatten).take 3,
          (resultAndPingBytes.flatten).drop 3] = some s ∧
      s.dispatched = resultAndPing.map Frame.message ∧ s.buffered = 0) ∧
    ∃ frames : List Frame, readFrames emptyObjects 3 resultAndPingBytes.flatten =
        .ok (frames.map some ++ [none]) ∧
      frames.map Frame.message = resultAndPing.map fun f => f.message.received := by
  constructor
  · obtain ⟨s, hrun, -, -, -, -, hall⟩ := (frames_read_as_written emptyObjects).1 zeroToken
      [104, 105, 10] [] resultAndPing resultAndPingBytes
      [[104], [105, 10] ++ (marker zeroToken).take 20, [],
        (marker zeroToken).drop 20 ++ (resultAndPingBytes.flatten).take 3,
        (resultAndPingBytes.flatten).drop 3]
      (by decide) (.cons (by rfl) (.cons (by rfl) .nil)) (by decide)
      (by
        intro f hf json hjson
        simp only [resultAndPing, List.mem_cons, List.not_mem_nil, or_false] at hf
        rcases hf with rfl | rfl
        · cases hjson
          rfl
        · cases hjson
          rfl)
      (by decide)
    exact ⟨s, hrun, hall rfl⟩
  · exact (frames_read_as_written emptyObjects).2 (resultAndPing.map Frame.message)
      resultAndPingBytes
      (.cons ⟨by rfl, by decide⟩ (.cons ⟨by rfl, by decide⟩ .nil))
      (by
        intro m hm
        simp only [resultAndPing, List.map_cons, List.map_nil, List.mem_cons, List.not_mem_nil,
          or_false] at hm
        rcases hm with rfl | rfl
        · exact True.intro
        · exact True.intro)
      (by decide)
      (by
        intro m hm _
        simp only [resultAndPing, List.map_cons, List.map_nil, List.mem_cons, List.not_mem_nil,
          or_false] at hm
        rcases hm with rfl | rfl
        · rfl
        · rfl)

end ThreeXhaust.Env
