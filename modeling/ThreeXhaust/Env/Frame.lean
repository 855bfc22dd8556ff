import ThreeXhaust.Lib.BigEndian
import ThreeXhaust.Lib.Json.Value
import ThreeXhaust.Lib.Utf16

/-!
# Frames of the env wire protocol

A frame is `u32 length | u8 type | u32 id | u32 jsonLength | json | payload`, big-endian. Each end
has a framer of its own: the client builds frames with `frame` and reads them in its session, the
daemon with `writeFrame` and `readFrame`. The JSON serialisers of the two languages are parameters
(`Serialisers`).

Both writers lay the same fields out (`layout`, `frame_eq_some`, `writeFrame_eq_ok`), and
`readFrame_layout` reads a layout back.
-/

namespace ThreeXhaust.Env

open Utf16 (Text)

/-- A JSON value; strings and keys are JavaScript's, in which a surrogate may stand alone. -/
inductive Data where
  | null
  | bool (b : Bool)
  | num (n : Json.Number)
  | str (s : Text)
  | arr (items : List Data)
  | obj (fields : List (Text × Data))

namespace Data

def isObject : Data → Bool
  | .obj _ => true
  | _ => false

mutual

/-- The replacer `wellFormed` over a value: string values become well-formed, keys are kept. -/
def wellFormed : Data → Data
  | .null => .null
  | .bool b => .bool b
  | .num n => .num n
  | .str s => .str (Utf16.toWellFormed s)
  | .arr items => .arr (wellFormedItems items)
  | .obj fields => .obj (wellFormedFields fields)

@[grind =] def wellFormedItems : List Data → List Data
  | [] => []
  | v :: rest => wellFormed v :: wellFormedItems rest

@[grind =] def wellFormedFields : List (Text × Data) → List (Text × Data)
  | [] => []
  | (key, v) :: rest => (key, wellFormed v) :: wellFormedFields rest

end

mutual

def KeysWellFormed : Data → Prop
  | .arr items => KeysWellFormedItems items
  | .obj fields => KeysWellFormedFields fields
  | _ => True

@[grind =] def KeysWellFormedItems : List Data → Prop
  | [] => True
  | v :: rest => KeysWellFormed v ∧ KeysWellFormedItems rest

@[grind =] def KeysWellFormedFields : List (Text × Data) → Prop
  | [] => True
  | (key, v) :: rest =>
    Utf16.isWellFormed key = true ∧ KeysWellFormed v ∧ KeysWellFormedFields rest

end

mutual

def IsWellFormed : Data → Prop
  | .str s => Utf16.isWellFormed s = true
  | .arr items => IsWellFormedItems items
  | .obj fields => IsWellFormedFields fields
  | _ => True

@[grind =] def IsWellFormedItems : List Data → Prop
  | [] => True
  | v :: rest => IsWellFormed v ∧ IsWellFormedItems rest

@[grind =] def IsWellFormedFields : List (Text × Data) → Prop
  | [] => True
  | (key, v) :: rest => Utf16.isWellFormed key = true ∧ IsWellFormed v ∧ IsWellFormedFields rest

end

mutual

theorem isWellFormed_wellFormed (v : Data) (h : v.KeysWellFormed) : v.wellFormed.IsWellFormed := by
  cases v with
  | null | bool | num => exact True.intro
  | str s => exact Utf16.isWellFormed_toWellFormed s
  | arr items => exact isWellFormed_items items h
  | obj fields => exact isWellFormed_fields fields h

theorem isWellFormed_items (items : List Data) (h : KeysWellFormedItems items) :
    IsWellFormedItems (wellFormedItems items) := by
  cases items with
  | nil => exact True.intro
  | cons v rest => exact ⟨isWellFormed_wellFormed v h.1, isWellFormed_items rest h.2⟩

theorem isWellFormed_fields (fields : List (Text × Data)) (h : KeysWellFormedFields fields) :
    IsWellFormedFields (wellFormedFields fields) := by
  cases fields with
  | nil => exact True.intro
  | cons field rest =>
    exact ⟨h.1, isWellFormed_wellFormed field.2 h.2.1, isWellFormed_fields rest h.2.2⟩

end

end Data

/-- What the two programs write and read as JSON, and the text of a log line. -/
structure Serialisers where
  /-- `Buffer.from(JSON.stringify(json), "utf8")` -/
  stringify : Data → Bytes
  /-- `JSON.parse(bytes.toString("utf8"))` -/
  parse : Bytes → Option Data
  /-- `serde_json::to_vec` -/
  toVec : Data → Option Bytes
  /-- `serde_json::from_slice` -/
  fromSlice : Bytes → Option Data
  /-- `bytes.toString("utf8").trim()` -/
  text : Bytes → String

def MAX_FRAME : Nat := 16 * 1024 * 1024

structure Message where
  type : Nat
  id : Nat
  json : Data
  payload : Bytes

structure Frame where
  kind : UInt8
  id : UInt32
  json : Data
  payload : Bytes

def Frame.message (f : Frame) : Message := ⟨f.kind.toNat, f.id.toNat, f.json, f.payload⟩

/-! ## The writers -/

/-- `frame`: the bytes of a frame, none where an integer does not fit into its field. -/
def frame (io : Serialisers) (m : Message) : Option Bytes :=
  let body := io.stringify m.json.wellFormed
  if 9 + body.length + m.payload.length < 2 ^ 32 ∧ m.type < 256 ∧ m.id < 2 ^ 32 then
    let header := be32 (9 + body.length + m.payload.length) ++ [UInt8.ofNat m.type] ++
      be32 m.id ++ be32 body.length
    some (header ++ body ++ m.payload)
  else none

inductive IoError where
  | invalidData (message : String)
  | unexpectedEof

/-- `write_frame`: the bytes written. -/
def writeFrame (io : Serialisers) (f : Frame) : Except IoError Bytes :=
  match io.toVec f.json with
  | none => .error (.invalidData "unserializable JSON")
  | some json =>
    let length := 9 + json.length + f.payload.length
    if length > MAX_FRAME then .error (.invalidData "frame too large")
    else
      let header := be32 (length % 2 ^ 32) ++ [f.kind] ++ be32 f.id.toNat ++
        be32 (json.length % 2 ^ 32)
      .ok (header ++ json ++ f.payload)

/-! ## The daemon's reader -/

/-- `read_frame`: one frame and the input behind it; none at the end of the input. -/
def readFrame (io : Serialisers) (input : Bytes) : Except IoError (Option (Frame × Bytes)) :=
  if input.length < 4 then .ok none
  else
    let length := ofBe (input.take 4)
    let input := input.drop 4
    if ¬ (9 ≤ length ∧ length ≤ MAX_FRAME) then
      .error (.invalidData "frame length out of range")
    else if input.length < length then .error .unexpectedEof
    else
      let body := input.take length
      let kind := body.headD 0
      let id := ofBe ((body.drop 1).take 4)
      let jsonLength := ofBe ((body.drop 5).take 4)
      if 9 + jsonLength > length then .error (.invalidData "JSON length out of range")
      else
        -- unparseable JSON leaves the framing intact
        let json := if jsonLength = 0 then .obj []
          else (io.fromSlice ((body.drop 9).take jsonLength)).getD .null
        .ok (some (⟨kind, UInt32.ofNat id, json, body.drop (9 + jsonLength)⟩, input.drop length))

/-- Repeated `read_frame`, at most that many calls, up to the first that returns none. -/
@[grind =] def readFrames (io : Serialisers) : Nat → Bytes → Except IoError (List (Option Frame))
  | 0, _ => .ok []
  | calls + 1, input => do
    match ← readFrame io input with
    | none => .ok [none]
    | some (f, input) => return some f :: (← readFrames io calls input)

/-! ## The layout both write -/

def body (kind : UInt8) (id : Nat) (json payload : Bytes) : Bytes :=
  kind :: (be32 id ++ (be32 json.length ++ (json ++ payload)))

def layout (kind : UInt8) (id : Nat) (json payload : Bytes) : Bytes :=
  be32 (9 + json.length + payload.length) ++ body kind id json payload

section Fields

variable {kind : UInt8} {id : Nat} {json payload : Bytes}

theorem body_length : (body kind id json payload).length = 9 + json.length + payload.length := by
  simp only [body, List.length_cons, List.length_append, be32_length]
  omega

theorem layout_length (kind : UInt8) (id : Nat) (json payload : Bytes) :
    (layout kind id json payload).length = 4 + (9 + json.length + payload.length) := by
  rw [layout, List.length_append, be32_length, body_length]

theorem body_id : (body kind id json payload |>.drop 1).take 4 = be32 id := by
  show (be32 id ++ _).take 4 = be32 id
  rw [be32_take]

theorem body_jsonLength : (body kind id json payload |>.drop 5).take 4 = be32 json.length := by
  show (be32 json.length ++ _).take 4 = be32 json.length
  rw [be32_take]

theorem body_drop : (body kind id json payload).drop 9 = json ++ payload := rfl

theorem body_json : ((body kind id json payload).drop 9).take json.length = json := by
  rw [body_drop, List.take_left]

theorem body_payload : (body kind id json payload).drop (9 + json.length) = payload := by
  rw [← List.drop_drop, body_drop, List.drop_left]

end Fields

theorem frame_eq_some {io : Serialisers} {m : Message} {bytes : Bytes}
    (h : frame io m = some bytes) :
    bytes = layout (UInt8.ofNat m.type) m.id (io.stringify m.json.wellFormed) m.payload ∧
      m.type < 256 ∧ m.id < 2 ^ 32 := by
  simp only [frame] at h
  split at h
  · rename_i hfits
    obtain rfl := Option.some.inj h
    refine ⟨?_, hfits.2⟩
    simp only [layout, body, List.append_assoc, List.cons_append, List.nil_append]
  · cases h

theorem writeFrame_eq_ok {io : Serialisers} {f : Frame} {bytes : Bytes}
    (h : writeFrame io f = .ok bytes) :
    ∃ json, io.toVec f.json = some json ∧ 9 + json.length + f.payload.length ≤ MAX_FRAME ∧
      bytes = layout f.kind f.id.toNat json f.payload := by
  unfold writeFrame at h
  split at h
  · cases h
  · rename_i json hjson
    simp only at h
    split at h
    · cases h
    · rename_i hlength
      refine ⟨json, hjson, Nat.not_lt.mp hlength, ?_⟩
      cases h
      simp only [layout, body, be32_mod, List.append_assoc, List.cons_append, List.nil_append]

theorem readFrame_layout (io : Serialisers) (kind : UInt8) {id : Nat} {json payload : Bytes}
    (rest : Bytes) (hid : id < 2 ^ 32)
    (hlength : 9 + json.length + payload.length ≤ MAX_FRAME) (hjson : json ≠ []) :
    readFrame io (layout kind id json payload ++ rest) =
      .ok (some (⟨kind, UInt32.ofNat id, (io.fromSlice json).getD .null, payload⟩, rest)) := by
  have hmax : MAX_FRAME < 2 ^ 32 := by decide
  have hlong : ¬ (layout kind id json payload ++ rest).length < 4 := by
    rw [List.length_append, layout_length]
    omega
  have htake : (layout kind id json payload ++ rest).take 4 =
      be32 (9 + json.length + payload.length) := by
    rw [layout, List.append_assoc, be32_take]
  have hdrop : (layout kind id json payload ++ rest).drop 4 =
      body kind id json payload ++ rest := by
    rw [layout, List.append_assoc, be32_drop]
  have hjsonLength : json.length ≠ 0 := fun h => hjson (List.eq_nil_of_length_eq_zero h)
  simp only [readFrame]
  rw [if_neg hlong, htake, hdrop, ofBe_be32 (by omega), if_neg (not_not.mpr ⟨by omega, hlength⟩),
    if_neg (by rw [List.length_append, body_length]; omega), ← body_length, List.take_left,
    List.drop_left, body_id, body_jsonLength, ofBe_be32 hid, ofBe_be32 (by omega),
    if_neg (by rw [body_length]; omega), if_neg hjsonLength, body_json, body_payload]
  rfl

end ThreeXhaust.Env
