import ThreeXhaust.Chord.Message
import ThreeXhaust.Lib.Varint

/-!
# The binary codec's writer

The `Writer` of `chord/src/next/link/binary.ts`: one growing buffer. As in a typed array, a byte
set past the buffer's end is lost and a run of bytes that does not fit throws (`none`), so that
every write depends on the room reserved before it.

`Writes op bytes` says what each operation adds to what is written so far. A text is written in
one of three ways by its length, and all three write a varint of its UTF-8 length, times the
scale, and its UTF-8 bytes (`text_writes`).
-/

namespace ThreeXhaust.Chord.Binary

open Json

def short : Nat := 42

def long : Nat := 4096

def lengthSlot : Nat := 5

/-- The room left after a large chunk for the fields that follow it. -/
def spareRoom : Nat := 4096

structure Writer where
  buffer : Bytes
  length : Nat

abbrev Write := StateT Writer Option

def Writer.new : Writer := { buffer := List.replicate 256 0, length := 0 }

def Writer.finish (w : Writer) : Bytes := w.buffer.take w.length

/-- Grows the buffer to fit `bytes` more. -/
def reserve (bytes : Nat) : Write Unit := fun w =>
  if w.length + bytes ≤ w.buffer.length then some ((), w)
  else
    let grown := max (w.buffer.length * 2) (w.length + bytes + spareRoom)
    some ((), { w with
      buffer := w.buffer.take w.length ++ List.replicate (grown - w.length) 0 })

def push (byte : UInt8) : Write Unit := fun w =>
  some ((), { buffer := w.buffer.set w.length byte, length := w.length + 1 })

def byte (b : Nat) : Write Unit := do
  reserve 1
  push (UInt8.ofNat b)

def varintLoop (rest : Nat) : Write Unit :=
  if rest < 0x80 then push (UInt8.ofNat rest)
  else do
    push (UInt8.ofNat ((rest % 0x80) ||| 0x80))
    varintLoop (rest / 0x80)

def varint (value : Nat) : Write Unit := do
  reserve 8
  varintLoop value

def blit (buffer : Bytes) (offset : Nat) (bytes : Bytes) : Bytes :=
  buffer.take offset ++ bytes ++ buffer.drop (offset + bytes.length)

/-- `this.#buffer.set(bytes, this.#length)`, which throws past the buffer's end. -/
def setBytes (bytes : Bytes) : Write Unit := fun w =>
  if w.length + bytes.length ≤ w.buffer.length then
    some ((), { buffer := blit w.buffer w.length bytes, length := w.length + bytes.length })
  else none

def raw (bytes : Bytes) : Write Unit := do
  reserve bytes.length
  setBytes bytes

/-- A short text: encoded behind the byte its prefix takes, then the prefix set. -/
def shortText (s : String) (scale : Nat) : Write Unit := fun w =>
  let written := (utf8Into (w.buffer.length - (w.length + 1)) s.toList).1
  some ((), {
    buffer := (blit w.buffer (w.length + 1) written).set w.length
      (UInt8.ofNat (written.length * scale))
    length := w.length + (1 + written.length) })

/-- One `encodeInto` of the rest of a text into what is left of the buffer; returns the
characters not read. -/
def encodeRest (cs : List Char) : Write (List Char) := fun w =>
  let done := utf8Into (w.buffer.length - w.length) cs
  some (done.2, { buffer := blit w.buffer w.length done.1, length := w.length + done.1.length })

/-- The loop that encodes a long text, making more room while characters are left. Each round
reads one at least, so that as many rounds as characters are enough. -/
def encodeLoop : Nat → List Char → Write Unit
  | _, [] => pure ()
  | 0, _ :: _ => fun _ => none
  | rounds + 1, c :: cs => do
    let rest ← encodeRest (c :: cs)
    if rest ≠ [] then reserve (max (utf16Length (String.ofList rest) * 2) 4)
    encodeLoop rounds rest

def setSlot : Nat → Nat → Nat → Bytes → Bytes
  | 0, _, _, buffer => buffer
  | left + 1, index, length, buffer =>
    setSlot left (index + 1) (length / 0x80)
      (buffer.set index (UInt8.ofNat ((length % 0x80) ||| (if 0 < left then 0x80 else 0))))

def skip (bytes : Nat) : Write Unit := fun w =>
  some ((), { w with length := w.length + bytes })

def fillSlot (slot scale : Nat) : Write Unit := fun w =>
  some ((), { w with
    buffer := setSlot lengthSlot slot ((w.length - slot - lengthSlot) * scale) w.buffer })

def longText (s : String) (scale : Nat) : Write Unit := do
  let slot := (← get).length
  reserve (lengthSlot + utf16Length s)
  skip lengthSlot
  encodeLoop s.toList.length s.toList
  fillSlot slot scale

/-- `#text`: a text behind its UTF-8 length times `scale`. -/
def text (s : String) (scale : Nat) : Write Unit := do
  if utf16Length s ≤ short / scale then
    reserve (1 + utf16Length s * 3)
    shortText s scale
  else if utf16Length s < long then
    varint ((utf8 s).length * scale)
    raw (utf8 s)
  else longText s scale

def string (s : String) : Write Unit := text s 1

/-- JSON text; the fields that use it are never `undefined`, for which the source writes
`null`. -/
def json (v : Value) : Write Unit := string v.stringify

/-- A part's length prefix is its length doubled, plus one when the part is deflated. -/
def deflatedFlag : Nat := 1

/-- A part: its text encoded in place, or its bytes copied as they are. -/
def part : Part → Write Unit
  | .text s => text s 2
  | .bytes bytes => do
    varint (bytes.length * 2)
    raw bytes
  | .deflated bytes => do
    varint (bytes.length * 2 + deflatedFlag)
    raw bytes

def each {α : Type} (write : α → Write Unit) : List α → Write Unit
  | [] => pure ()
  | x :: rest => do
    write x
    each write rest

/-! A payload's flags: present, and carrying byte segments. -/

def present : Nat := 1

def segmentsFlag : Nat := 2

/-- A payload: its flags, then its part and, when marked, its segments (count, lengths, raw
bytes). -/
def payload (p : Option Part) (segments : Option (List Bytes)) : Write Unit :=
  match p with
  | none => varint 0
  | some p => do
    varint (if segments.isNone then present else present ||| segmentsFlag)
    part p
    match segments with
    | none => pure ()
    | some segments => do
      varint segments.length
      each (fun segment => varint segment.length) segments
      each raw segments

def failedMember (f : FailedMember) : Write Unit := do
  varint f.member
  json f.error

def failed (entries : List FailedMember) : Write Unit := do
  varint entries.length
  each failedMember entries

/-- A state entry's failures and retirements: the failure count times two, plus one when
retirements follow. -/
def failedAndRetired (entries : List FailedMember) (retired : List Nat) : Write Unit := do
  varint (entries.length * 2 + (if 0 < retired.length then 1 else 0))
  each failedMember entries
  if retired.length = 0 then pure ()
  else do
    varint retired.length
    each varint retired

/-! ## What the operations write -/

/-- A writer that has written `out`, with the spare room `spare` behind it. -/
def Writer.holding (out spare : Bytes) : Writer :=
  { buffer := out ++ spare, length := out.length }

def Writes (op : Write Unit) (bytes : Bytes) : Prop :=
  ∀ out spare, ∃ spare', op (.holding out spare) = some ((), .holding (out ++ bytes) spare')

theorem Writer.holding_finish (out spare : Bytes) :
    (Writer.holding out spare).finish = out := by
  simp [Writer.finish, Writer.holding]

theorem bind_run {α β : Type} {op : Write α} {k : α → Write β} {w w' : Writer} {a : α}
    (h : op w = some (a, w')) : (op >>= k) w = k a w' := by
  show StateT.bind op k w = _
  unfold StateT.bind
  rw [h]
  rfl

theorem Writes.pure : Writes (pure ()) [] := fun out spare => ⟨spare, by
  rw [List.append_nil]
  rfl⟩

theorem Writes.bind {op : Write Unit} {k : Unit → Write Unit} {bytes bytes' : Bytes}
    (h : Writes op bytes) (hk : Writes (k ()) bytes') :
    Writes (op >>= k) (bytes ++ bytes') := by
  intro out spare
  obtain ⟨mid, hop⟩ := h out spare
  obtain ⟨spare', hk⟩ := hk (out ++ bytes) mid
  rw [List.append_assoc] at hk
  exact ⟨spare', (bind_run hop).trans hk⟩

theorem reserve_holding (n : Nat) (out spare : Bytes) :
    ∃ spare', reserve n (.holding out spare) = some ((), .holding out spare') ∧
      n ≤ spare'.length := by
  by_cases h : out.length + n ≤ (out ++ spare).length
  · refine ⟨spare, ?_, ?_⟩
    · show (if out.length + n ≤ (out ++ spare).length then _ else _) = _
      rw [if_pos h]
    · rw [List.length_append] at h
      omega
  · refine ⟨List.replicate (max ((out ++ spare).length * 2) (out.length + n + spareRoom) -
      out.length) 0, ?_, ?_⟩
    · show (if out.length + n ≤ (out ++ spare).length then _ else _) = _
      rw [if_neg h]
      simp [Writer.holding]
    · rw [List.length_replicate]
      omega

theorem Writes.reserve {n : Nat} {op : Write Unit} {bytes : Bytes}
    (h : ∀ out spare, n ≤ spare.length →
      ∃ spare', op (.holding out spare) = some ((), .holding (out ++ bytes) spare')) :
    Writes (do Binary.reserve n; op) bytes := by
  intro out spare
  obtain ⟨mid, hres, hroom⟩ := reserve_holding n out spare
  obtain ⟨spare', hop⟩ := h out mid hroom
  exact ⟨spare', (bind_run hres).trans hop⟩

theorem push_holding (b x : UInt8) (out spare : Bytes) :
    push b (.holding out (x :: spare)) = some ((), .holding (out ++ [b]) spare) := by
  simp [push, Writer.holding]

theorem byte_writes (b : Nat) : Writes (byte b) [UInt8.ofNat b] := by
  apply Writes.reserve
  intro out spare hroom
  cases spare with
  | nil => simp at hroom
  | cons x spare => exact ⟨spare, push_holding _ x out spare⟩

theorem Writes.each {α : Type} {write : α → Write Unit} {bytes : α → Bytes} (xs : List α)
    (h : ∀ x ∈ xs, Writes (write x) (bytes x)) : Writes (each write xs) (xs.flatMap bytes) := by
  induction xs with
  | nil => exact Writes.pure
  | cons x xs ih =>
    exact (h x List.mem_cons_self).bind (ih fun y hy => h y (List.mem_cons_of_mem x hy))

theorem varintLoop_holding (n : Nat) (out spare : Bytes)
    (h : (varintBytes n).length ≤ spare.length) :
    ∃ spare', varintLoop n (.holding out spare) =
      some ((), .holding (out ++ varintBytes n) spare') := by
  induction n using varintLoop.induct generalizing out spare with
  | case1 n hn =>
    rw [varintBytes, if_pos hn] at h ⊢
    rw [varintLoop, if_pos hn]
    cases spare with
    | nil => simp at h
    | cons x spare => exact ⟨spare, push_holding _ x out spare⟩
  | case2 n hn ih =>
    rw [varintBytes, if_neg hn] at h ⊢
    rw [varintLoop, if_neg hn]
    cases spare with
    | nil => simp at h
    | cons x spare =>
      obtain ⟨spare', htail⟩ := ih (out ++ [varintMore (n % 128)]) spare
        (by simpa using h)
      rw [List.append_assoc] at htail
      exact ⟨spare', (bind_run (push_holding _ x out spare)).trans htail⟩

theorem varint_writes (n : Nat) (h : n < 128 ^ 8) : Writes (varint n) (varintBytes n) := by
  apply Writes.reserve
  intro out spare hroom
  have hlen := varintBytes_length_le 7 n h
  exact varintLoop_holding n out spare (by omega)

theorem blit_holding (out spare bytes : Bytes) :
    blit (out ++ spare) out.length bytes = (out ++ bytes) ++ spare.drop bytes.length := by
  rw [blit, List.take_left, List.drop_length_add_append]

theorem raw_writes (bytes : Bytes) : Writes (raw bytes) bytes := by
  apply Writes.reserve
  intro out spare hroom
  refine ⟨spare.drop bytes.length, ?_⟩
  have hfits : (Writer.holding out spare).length + bytes.length ≤
      (Writer.holding out spare).buffer.length := by
    simp only [Writer.holding, List.length_append]
    omega
  rw [setBytes, if_pos hfits]
  simp only [Writer.holding, blit_holding out spare bytes, List.length_append]

/-! ## Texts -/

theorem utf8EncodeChar_length_le_units (c : Char) :
    (String.utf8EncodeChar c).length ≤ 3 * (utf16Char c).length := by
  rw [String.length_utf8EncodeChar, utf16Char]
  have h4 := c.utf8Size_le_four
  split
  · next h =>
    have h3 : c.utf8Size ≠ 4 := by
      intro h4
      have hbig := UInt32.lt_iff_toNat_lt.mp (Char.utf8Size_eq_four_iff.mp h4)
      have hsmall : c.val.toNat < 0x10000 := h
      exact absurd hbig (by simpa using Nat.le_of_lt_succ hsmall)
    simp only [List.length_singleton]
    omega
  · simp
    omega

theorem utf8_length_le (s : String) : (utf8 s).length ≤ 3 * utf16Length s := by
  unfold utf8 utf16Length utf16 utf8Chars
  induction s.toList with
  | nil => exact Nat.le_refl _
  | cons c cs ih =>
    have hc := utf8EncodeChar_length_le_units c
    simp only [List.flatMap_cons, List.length_append]
    omega

def textLimit : Nat := 2 ^ 34

/-- What a text is written as: its length times the scale, padded for a long text, and its
UTF-8 bytes. -/
def textBytes (s : String) (scale : Nat) : Bytes :=
  (if utf16Length s < long then varintBytes ((utf8 s).length * scale)
    else paddedBytes 4 ((utf8 s).length * scale)) ++ utf8 s

variable {s : String} {scale : Nat}

theorem shortText_holding (out spare : Bytes) (hroom : 1 + utf16Length s * 3 ≤ spare.length)
    (hlen : (utf8 s).length * scale < 128) :
    ∃ spare', shortText s scale (.holding out spare) =
      some ((), .holding (out ++ (varintBytes ((utf8 s).length * scale) ++ utf8 s)) spare') := by
  cases spare with
  | nil => simp at hroom
  | cons x spare =>
    have hfits := utf8_length_le s
    rw [List.length_cons] at hroom
    have hinto : utf8Into ((Writer.holding out (x :: spare)).buffer.length -
        ((Writer.holding out (x :: spare)).length + 1)) s.toList = (utf8 s, []) := by
      apply utf8Into_all
      simp only [Writer.holding, List.length_append, List.length_cons]
      show (utf8 s).length ≤ _
      omega
    refine ⟨spare.drop (utf8 s).length, ?_⟩
    have hblit := blit_holding (out ++ [x]) spare (utf8 s)
    rw [List.append_assoc, List.length_append] at hblit
    have hone : varintBytes ((utf8 s).length * scale) =
        [UInt8.ofNat ((utf8 s).length * scale)] := by
      rw [varintBytes, if_pos hlen]
    simp only [shortText, hinto, hone]
    simp only [Writer.holding]
    rw [show out ++ x :: spare = out ++ ([x] ++ spare) from rfl,
      show out.length + 1 = out.length + [x].length from rfl, hblit]
    simp [Nat.add_comm]

theorem encodeRest_holding (cs : List Char) (out spare : Bytes) :
    encodeRest cs (.holding out spare) =
      some ((utf8Into spare.length cs).2,
        .holding (out ++ (utf8Into spare.length cs).1)
          (spare.drop (utf8Into spare.length cs).1.length)) := by
  have hroom : (out ++ spare).length - out.length = spare.length := by
    rw [List.length_append]
    omega
  simp only [encodeRest, Writer.holding, hroom, blit_holding]
  rw [List.length_append]

theorem encodeLoop_holding (rounds : Nat) (cs : List Char) (out spare : Bytes)
    (hrounds : cs.length ≤ rounds) (hroom : 4 ≤ spare.length) :
    ∃ spare', encodeLoop rounds cs (.holding out spare) =
      some ((), .holding (out ++ utf8Chars cs) spare') := by
  induction rounds generalizing cs out spare with
  | zero =>
    obtain rfl := List.length_eq_zero_iff.mp (Nat.le_zero.mp hrounds)
    exact Writes.pure out spare
  | succ rounds ih =>
    cases cs with
    | nil => exact Writes.pure out spare
    | cons c cs =>
      have hless := utf8Into_progress hroom (List.cons_ne_nil c cs)
      have hbytes := utf8Into_append spare.length (c :: cs)
      have hread := encodeRest_holding (c :: cs) out spare
      generalize utf8Into spare.length (c :: cs) = done at hless hbytes hread
      rw [encodeLoop, bind_run hread]
      rcases hrest : done.2 with _ | ⟨d, ds⟩
      · -- everything is read: the loop ends with the room as it is
        rw [hrest, utf8Chars_nil, List.append_nil] at hbytes
        rw [← hbytes, if_neg (fun h => h rfl)]
        refine ⟨spare.drop done.1.length, ?_⟩
        cases rounds <;> rfl
      · rw [if_pos (List.cons_ne_nil d ds)]
        obtain ⟨mid, hres, hmid⟩ := reserve_holding
          (max (utf16Length (String.ofList (d :: ds)) * 2) 4) (out ++ done.1)
          (spare.drop done.1.length)
        rw [hrest] at hless hbytes
        obtain ⟨spare', hloop⟩ := ih (d :: ds) (out ++ done.1) mid
          (by omega) (by omega)
        rw [List.append_assoc, hbytes] at hloop
        exact ⟨spare', (bind_run hres).trans hloop⟩

theorem setSlot_eq (k length : Nat) (out slot rest : Bytes) (h : slot.length = k + 1)
    (hlen : length < 128 ^ (k + 1)) :
    setSlot (k + 1) out.length length (out ++ (slot ++ rest)) =
      out ++ (paddedBytes k length ++ rest) := by
  induction k generalizing length out slot with
  | zero =>
    obtain ⟨x, rfl⟩ := List.length_eq_one_iff.mp h
    have hmod : length % 0x80 = length := Nat.mod_eq_of_lt (by simpa using hlen)
    simp only [setSlot, Nat.lt_irrefl, if_false, Nat.or_zero, hmod, paddedBytes]
    simp
  | succ k ih =>
    cases slot with
    | nil => simp at h
    | cons x slot =>
      have hset : (out ++ (x :: slot ++ rest)).set out.length (varintMore (length % 128)) =
          (out ++ [varintMore (length % 128)]) ++ (slot ++ rest) := by
        simp
      have hdiv : length / 128 < 128 ^ (k + 1) := by
        apply Nat.div_lt_of_lt_mul
        rwa [← Nat.pow_succ']
      have htail := ih (length / 128) (out ++ [varintMore (length % 128)]) slot
        (Nat.succ.inj h) hdiv
      rw [setSlot, if_pos (Nat.succ_pos k)]
      rw [List.length_append] at htail
      show setSlot (k + 1) (out.length + 1) (length / 128)
        ((out ++ (x :: slot ++ rest)).set out.length (varintMore (length % 128))) = _
      rw [hset]
      refine htail.trans ?_
      simp [paddedBytes]

theorem skip_holding {n : Nat} {out spare : Bytes} (h : n ≤ spare.length) :
    skip n (.holding out spare) = some ((), .holding (out ++ spare.take n) (spare.drop n)) := by
  simp [skip, Writer.holding, h]

theorem fillSlot_holding (scale : Nat) (out slot written spare : Bytes)
    (hslot : slot.length = lengthSlot) (hlen : written.length * scale < 128 ^ lengthSlot) :
    fillSlot out.length scale (.holding (out ++ slot ++ written) spare) =
      some ((), .holding (out ++ (paddedBytes 4 (written.length * scale) ++ written)) spare) := by
  have hwritten : (out ++ slot ++ written).length - out.length - lengthSlot = written.length := by
    simp only [List.length_append, hslot]
    omega
  have hfill := setSlot_eq 4 (written.length * scale) out slot (written ++ spare) hslot hlen
  simp only [fillSlot, Writer.holding, hwritten]
  rw [show out ++ slot ++ written ++ spare = out ++ (slot ++ (written ++ spare)) by simp]
  rw [show lengthSlot = 4 + 1 from rfl, hfill]
  simp [hslot, lengthSlot]

theorem longText_writes (hlong : long ≤ utf16Length s)
    (hlen : (utf8 s).length * scale < 128 ^ lengthSlot) :
    Writes (longText s scale) (paddedBytes 4 ((utf8 s).length * scale) ++ utf8 s) := by
  intro out spare
  obtain ⟨mid, hres, hmid⟩ := reserve_holding (lengthSlot + utf16Length s) out spare
  have hslot : (mid.take lengthSlot).length = lengthSlot := by
    rw [List.length_take]
    omega
  obtain ⟨spare', hloop⟩ := encodeLoop_holding s.toList.length s.toList
    (out ++ mid.take lengthSlot) (mid.drop lengthSlot) (Nat.le_refl _) (by
      rw [List.length_drop]
      simp only [long, lengthSlot] at *
      omega)
  have hget : (get : Write Writer) (.holding out spare) =
      some (.holding out spare, .holding out spare) := rfl
  refine ⟨spare', ?_⟩
  rw [longText, bind_run hget, bind_run hres, bind_run (skip_holding (by omega)), bind_run hloop]
  exact fillSlot_holding scale out _ (utf8 s) spare' hslot hlen

/-- **Every text is written as its length and its bytes**, in each of the three ways. -/
theorem text_writes (s : String) (hscale : scale = 1 ∨ scale = 2)
    (hlen : (utf8 s).length < textLimit) : Writes (text s scale) (textBytes s scale) := by
  have hunits := utf8_length_le s
  unfold text textBytes
  by_cases hshort : utf16Length s ≤ short / scale
  · have hlong : utf16Length s < long := by
      rcases hscale with rfl | rfl <;> simp only [short, long] at * <;> omega
    rw [if_pos hshort, if_pos hlong]
    apply Writes.reserve
    intro out spare hroom
    apply shortText_holding out spare hroom
    rcases hscale with rfl | rfl <;> simp only [short] at * <;> omega
  · rw [if_neg hshort]
    by_cases hlong : utf16Length s < long
    · rw [if_pos hlong, if_pos hlong]
      apply Writes.bind _ (raw_writes _)
      apply varint_writes
      rcases hscale with rfl | rfl <;> simp only [long] at * <;> omega
    · rw [if_neg hlong, if_neg hlong]
      apply longText_writes (Nat.le_of_not_lt hlong)
      rcases hscale with rfl | rfl <;> simp only [textLimit, lengthSlot] at * <;> omega

theorem string_writes (h : (utf8 s).length < textLimit) :
    Writes (string s) (textBytes s 1) := text_writes s (.inl rfl) h

theorem json_writes {v : Value} (h : (utf8 v.stringify).length < textLimit) :
    Writes (json v) (textBytes v.stringify 1) := text_writes _ (.inl rfl) h

/-! ## Parts -/

/-- A byte array of a size that its doubled length, plus one, is still a safe integer. -/
def bytesLimit : Nat := 2 ^ 52

def partBytes : Part → Bytes
  | .text s => textBytes s 2
  | .bytes bytes => varintBytes (bytes.length * 2) ++ bytes
  | .deflated bytes => varintBytes (bytes.length * 2 + deflatedFlag) ++ bytes

def PartSized : Part → Prop
  | .text s => (utf8 s).length < textLimit
  | .bytes bytes | .deflated bytes => bytes.length < bytesLimit

theorem part_writes {p : Part} (h : PartSized p) : Writes (part p) (partBytes p) := by
  cases p with
  | text s => exact text_writes s (.inr rfl) h
  | bytes bytes =>
    have hlen : bytes.length < bytesLimit := h
    exact (varint_writes _ (by simp only [bytesLimit] at hlen; omega)).bind (raw_writes bytes)
  | deflated bytes =>
    have hlen : bytes.length < bytesLimit := h
    exact (varint_writes _ (by simp only [bytesLimit, deflatedFlag] at *; omega)).bind
      (raw_writes bytes)

end ThreeXhaust.Chord.Binary
