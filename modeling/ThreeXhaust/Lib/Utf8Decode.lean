import ThreeXhaust.Lib.Utf8Cut

/-!
# The replacing decoder

A decoder that is not strict puts U+FFFD where the bytes are no UTF-8: one for the longest front
of the rest that some character begins with, one for a single byte where there is none.
-/

def secondFits (lead second : UInt8) : Bool :=
  if lead = 0xE0 then 0xA0 ≤ second && second ≤ 0xBF
  else if lead = 0xED then 0x80 ≤ second && second ≤ 0x9F
  else if lead = 0xF0 then 0x90 ≤ second && second ≤ 0xBF
  else if lead = 0xF4 then 0x80 ≤ second && second ≤ 0x8F
  else 0xE1 ≤ lead && lead ≤ 0xF3 && 0x80 ≤ second && second ≤ 0xBF

/-- How many bytes one replacement character stands for, where no character begins. -/
def replacedLength : Bytes → Nat
  | lead :: second :: rest =>
    if secondFits lead second then
      if lead ≥ 0xF0 && rest.head?.any isContinuation then 3 else 2
    else 1
  | _ => 1

@[grind =] def decodeReplacing : Nat → Bytes → List Char
  | 0, _ => []
  | _ + 1, [] => []
  | fuel + 1, b :: rest =>
    match ByteArray.utf8DecodeChar? ⟨(b :: rest).toArray⟩ 0 with
    | some c => c :: decodeReplacing fuel ((b :: rest).drop c.utf8Size)
    | none => Char.ofNat 0xFFFD :: decodeReplacing fuel ((b :: rest).drop (replacedLength (b :: rest)))

/-- `buffer.toString("utf8")` -/
def decodeUtf8 (bytes : Bytes) : String :=
  match readUtf8 bytes with
  | some s => s
  | none => String.ofList (decodeReplacing bytes.length bytes)

theorem decodeUtf8_utf8 (s : String) : decodeUtf8 (utf8 s) = s := by
  rw [decodeUtf8, readUtf8_utf8]
