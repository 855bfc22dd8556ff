import ThreeXhaust.Chord.Binary.Writer
import ThreeXhaust.Lib.ByteReader
import ThreeXhaust.Lib.Json.RoundTrip

/-!
# The binary codec's reader

The `Reader` of `chord/src/next/link/binary.ts`, and what it makes of the bytes the writer
writes. A varint has at most eight bytes and is at most a safe integer (`varint_run`), so that
what the writer adds to a value or doubles may be refused where the value itself is not.
-/

namespace ThreeXhaust.Chord.Binary.Read

open Json Reader

def byte : Reader Nat
  | [] => none
  | b :: rest => some (b.toNat, rest)

/-- The loop of `varint`: how many bytes it may still read, the value so far and the scale of
the next byte. -/
def varintLoop : Nat → Nat → Nat → Reader Nat
  | 0, _, _ => refuse
  | left + 1, value, scale => do
    let b ← byte
    let value := value + b % 0x80 * scale
    ensure (value ≤ maxSafeInteger)
    if b < 0x80 then pure value else varintLoop left value (scale * 0x80)

def varint : Reader Nat := varintLoop 8 0 1

def string : Reader String := do
  let bytes ← take (← varint)
  readUtf8 bytes

def parseJson (bytes : Bytes) : Option Value := do parse (← readUtf8 bytes)

def json : Reader Value := do
  let bytes ← take (← varint)
  parseJson bytes

def part : Reader Part := do
  let prefixed ← varint
  let bytes ← take (prefixed / 2)
  pure (if prefixed % 2 = deflatedFlag then .deflated bytes else .bytes bytes)

def list {α : Type} (read : Reader α) : Reader (List α) := do
  let count ← varint
  ensure (count ≤ (← left))
  times read count

/-- `lengths.map((length) => this.raw(length))` -/
def takeEach : List Nat → Reader (List Bytes)
  | [] => pure []
  | length :: lengths => do
    let bytes ← take length
    let rest ← takeEach lengths
    pure (bytes :: rest)

/-- A payload part, absent when not present, with its segments when marked as carrying them. -/
def payload : Reader (Option Part × Option (List Bytes)) := do
  let flags ← varint
  if flags = 0 then pure (none, none)
  else do
    ensure (flags = present ∨ flags = present ||| segmentsFlag)
    let p ← part
    if flags = present then pure (some p, none)
    else do
      let lengths ← list varint
      let segments ← takeEach lengths
      pure (some p, some segments)

def failedMember : Reader FailedMember := do
  let member ← varint
  let error ← json
  pure { member, error }

/-- `count` failed members, as the writer writes them after their count. -/
def failedEntries (count : Nat) : Reader (List FailedMember) := do
  ensure (count ≤ (← left))
  times failedMember count

def failed : Reader (List FailedMember) := do failedEntries (← varint)

/-! ## Varints -/

theorem byte_cons (b : UInt8) (rest : Bytes) : byte (b :: rest) = some (b.toNat, rest) := rfl

theorem reads_byte {b : Nat} (h : b < 256) : Reads byte [UInt8.ofNat b] b := by
  intro rest
  have hb : (UInt8.ofNat b).toNat = b := by
    rw [UInt8.toNat_ofNat']
    omega
  rw [List.singleton_append, byte_cons, hb]

theorem varintLoop_run {bytes : Bytes} {n : Nat} (h : Varint bytes n) (left value scale : Nat)
    (hleft : bytes.length ≤ left) (rest : Bytes) :
    varintLoop left value scale (bytes ++ rest) =
      if value + n * scale ≤ maxSafeInteger then some (value + n * scale, rest) else none := by
  induction h generalizing left value scale with
  | @last group hgroup =>
    cases left with
    | zero => simp at hleft
    | succ left =>
      have hread := reads_byte (b := group) (by omega)
      rw [varintLoop, hread.bind_run, Nat.mod_eq_of_lt hgroup]
      by_cases hsafe : value + group * scale ≤ maxSafeInteger
      · have hens := (reads_ensure hsafe).bind_run
          (fun _ => if group < 0x80 then pure (value + group * scale)
            else varintLoop left (value + group * scale) (scale * 0x80)) rest
        rw [List.nil_append] at hens
        rw [hens, if_pos hgroup, if_pos hsafe]
        rfl
      · rw [if_neg hsafe, ensure, if_neg hsafe]
        rfl
  | @more group n bytes hgroup hrest ih =>
    cases left with
    | zero => simp at hleft
    | succ left =>
      have hread : Reads byte [varintMore group] (group + 128) := by
        intro rest
        rw [List.singleton_append, byte_cons, toNat_varintMore hgroup]
      have hbyte := hread.bind_run (fun b => do
        ensure (value + b % 0x80 * scale ≤ maxSafeInteger)
        if b < 0x80 then pure (value + b % 0x80 * scale)
        else varintLoop left (value + b % 0x80 * scale) (scale * 0x80)) (bytes ++ rest)
      have hmod : (group + 128) % 128 = group := by omega
      have hsum : value + (group + 128 * n) * scale =
          value + group * scale + n * (scale * 0x80) := by
        rw [Nat.add_mul, ← Nat.add_assoc, Nat.mul_comm 128 n, Nat.mul_assoc,
          Nat.mul_comm 128 scale]
      rw [varintLoop, List.cons_append]
      refine hbyte.trans ?_
      rw [hmod, hsum]
      by_cases hsafe : value + group * scale ≤ maxSafeInteger
      · have hens := (reads_ensure hsafe).bind_run
          (fun _ => if group + 128 < 0x80 then pure (value + group * scale)
            else varintLoop left (value + group * scale) (scale * 0x80)) (bytes ++ rest)
        rw [List.nil_append] at hens
        rw [hens, if_neg (by omega)]
        exact ih left (value + group * scale) (scale * 0x80) (by simpa using hleft)
      · have hsum : ¬ value + group * scale + n * (scale * 128) ≤ maxSafeInteger :=
          fun h => hsafe (Nat.le_trans (Nat.le_add_right _ _) h)
        rw [if_neg hsum, ensure, if_neg hsafe]
        rfl

theorem varint_run {bytes : Bytes} {n : Nat} (h : Varint bytes n) (hlen : bytes.length ≤ 8)
    (rest : Bytes) :
    varint (bytes ++ rest) = if n ≤ maxSafeInteger then some (n, rest) else none := by
  have hrun := varintLoop_run h 8 0 1 hlen rest
  rwa [Nat.zero_add, Nat.mul_one] at hrun

theorem maxSafe_lt : maxSafeInteger < 128 ^ (7 + 1) := by decide

theorem reads_varint {n : Nat} (h : n ≤ maxSafeInteger) : Reads varint (varintBytes n) n := by
  intro rest
  have hlen := varintBytes_length_le 7 n (Nat.lt_of_le_of_lt h maxSafe_lt)
  rw [varint_run (varint_varintBytes n) hlen, if_pos h]

theorem varint_refused {n : Nat} (h : maxSafeInteger < n) (hn : n < 128 ^ (7 + 1))
    (rest : Bytes) : varint (varintBytes n ++ rest) = none := by
  rw [varint_run (varint_varintBytes n) (varintBytes_length_le 7 n hn),
    if_neg (Nat.not_le_of_lt h)]

/-! ## Texts and parts -/

theorem reads_textLength (s : String) {scale : Nat} (hscale : scale = 1 ∨ scale = 2)
    (h : (utf8 s).length < textLimit) :
    ∃ front, textBytes s scale = front ++ utf8 s ∧
      Reads varint front ((utf8 s).length * scale) := by
  have hsafe : (utf8 s).length * scale ≤ maxSafeInteger := by
    rcases hscale with rfl | rfl <;> simp only [textLimit, maxSafeInteger] at * <;> omega
  refine ⟨_, rfl, ?_⟩
  split
  · exact reads_varint hsafe
  · have hpad : (utf8 s).length * scale < 128 ^ (4 + 1) := by
      rcases hscale with rfl | rfl <;> simp only [textLimit] at * <;> omega
    intro rest
    rw [varint_run (varint_paddedBytes 4 _ hpad) (by simp), if_pos hsafe]

theorem reads_some {α : Type} {x : Option α} {a : α} (h : x = some a) :
    Reads (liftM x : Reader α) [] a := by
  intro rest
  subst h
  rfl

theorem reads_string {s : String} (h : (utf8 s).length < textLimit) :
    Reads string (textBytes s 1) s := by
  obtain ⟨front, hbytes, hfront⟩ := reads_textLength s (.inl rfl) h
  rw [hbytes]
  rw [Nat.mul_one] at hfront
  exact hfront.bind ((reads_take (utf8 s) rfl).last (reads_some (readUtf8_utf8 s)))

theorem reads_json {v : Value} (hv : v.IsJson) (h : (utf8 v.stringify).length < textLimit) :
    Reads json (textBytes v.stringify 1) v := by
  obtain ⟨front, hbytes, hfront⟩ := reads_textLength v.stringify (.inl rfl) h
  have hparse : parseJson (utf8 v.stringify) = some v := by
    rw [parseJson, readUtf8_utf8]
    exact parse_stringify v hv
  rw [hbytes]
  rw [Nat.mul_one] at hfront
  exact hfront.bind ((reads_take (utf8 v.stringify) rfl).last (reads_some hparse))

theorem reads_part {p : Part} (h : PartSized p) : Reads part (partBytes p) p.received := by
  cases p with
  | text s =>
    obtain ⟨front, hbytes, hfront⟩ := reads_textLength s (.inr rfl) h
    have hhalf : (utf8 s).length * 2 / 2 = (utf8 s).length := by omega
    have hmod : (utf8 s).length * 2 % 2 ≠ deflatedFlag := by simp [deflatedFlag]
    rw [partBytes, hbytes]
    refine hfront.bind ((reads_take (utf8 s) hhalf.symm).last ?_)
    rw [if_neg hmod]
    exact Reads.pure _
  | bytes b =>
    have hlen : b.length < bytesLimit := h
    have hhalf : b.length * 2 / 2 = b.length := by omega
    have hmod : b.length * 2 % 2 ≠ deflatedFlag := by simp [deflatedFlag]
    refine (reads_varint (by simp only [bytesLimit, maxSafeInteger] at *; omega)).bind
      ((reads_take b hhalf.symm).last ?_)
    rw [if_neg hmod]
    exact Reads.pure _
  | deflated b =>
    have hlen : b.length < bytesLimit := h
    have hhalf : (b.length * 2 + deflatedFlag) / 2 = b.length := by
      simp only [deflatedFlag]
      omega
    have hmod : (b.length * 2 + deflatedFlag) % 2 = deflatedFlag := by simp [deflatedFlag]
    refine (reads_varint (by simp only [bytesLimit, maxSafeInteger, deflatedFlag] at *; omega)).bind
      ((reads_take b hhalf.symm).last ?_)
    rw [if_pos hmod]
    exact Reads.pure _

/-! ## Lists -/

theorem reads_left {α : Type} {read : Reader α} {n : Nat} {bytes : Bytes} {a : α}
    (h : Reads read bytes a) (hn : n ≤ bytes.length) :
    Reads (do ensure (n ≤ (← left)); read) bytes a := by
  intro rest
  have hle : n ≤ (bytes ++ rest).length := by
    rw [List.length_append]
    omega
  show (ensure (n ≤ (bytes ++ rest).length) >>= fun _ => read) (bytes ++ rest) = _
  rw [ensure, if_pos hle]
  exact h rest

theorem length_le_flatMap {α : Type} {write : α → Bytes} (xs : List α)
    (h : ∀ x ∈ xs, 0 < (write x).length) : xs.length ≤ (xs.flatMap write).length := by
  induction xs with
  | nil => exact Nat.le_refl _
  | cons x xs ih =>
    have hx := h x List.mem_cons_self
    have htail := ih fun y hy => h y (List.mem_cons_of_mem x hy)
    rw [List.flatMap_cons, List.length_append, List.length_cons]
    omega

theorem reads_takeEach (segments : List Bytes) :
    Reads (takeEach (segments.map List.length)) segments.flatten segments := by
  induction segments with
  | nil => exact Reads.pure []
  | cons b rest ih => exact (reads_take b rfl).bind (ih.last (Reads.pure _))

end ThreeXhaust.Chord.Binary.Read
