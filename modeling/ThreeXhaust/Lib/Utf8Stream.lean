import Mathlib.Algebra.Group.Nat.Defs
import ThreeXhaust.Lib.Bytes
import ThreeXhaust.Lib.Lines

/-!
# Decoding UTF-8 from a stream

The decoder reads one byte after the other. It puts U+FFFD where a character breaks off, and reads
the byte that broke it off again; at the end it puts one for what is unfinished. A newline breaks
off whatever stands before it, so the text of a file is the text of its lines
(`split_decode`), whatever the bytes are.
-/

namespace Utf8Stream

/-- A character whose first bytes were read. No newline comes out of it: its next byte is none,
and the character is not below 0x80. -/
structure Pending where
  codePoint : Nat
  /-- The bytes that are needed behind the next one. -/
  more : Nat
  lower : Nat
  upper : Nat
  tail : 0x80 ≤ lower
  wide : 0x80 ≤ (codePoint * 64 + (lower - 0x80)) * 64 ^ more

/-- Between two characters, or inside one. -/
abbrev Decoder := Option Pending

def replacement : Char := Char.ofNat 0xFFFD

/-- The first byte of a character. -/
def lead (byte : Nat) : Decoder × List Char :=
  if byte ≤ 0x7F then (none, [Char.ofNat byte])
  else if h : 0xC2 ≤ byte ∧ byte ≤ 0xDF then
    (some ⟨byte - 0xC0, 0, 0x80, 0xBF, by decide, by omega⟩, [])
  else if byte = 0xE0 then (some ⟨0, 1, 0xA0, 0xBF, by decide, by decide⟩, [])
  else if h : 0xE1 ≤ byte ∧ byte ≤ 0xEF then
    (some ⟨byte - 0xE0, 1, 0x80, if byte = 0xED then 0x9F else 0xBF, by decide, by omega⟩, [])
  else if byte = 0xF0 then (some ⟨0, 2, 0x90, 0xBF, by decide, by decide⟩, [])
  else if h : 0xF1 ≤ byte ∧ byte ≤ 0xF4 then
    (some ⟨byte - 0xF0, 2, 0x80, if byte = 0xF4 then 0x8F else 0xBF, by decide, by omega⟩, [])
  else (none, [replacement])

theorem Pending.wide_next (p : Pending) {byte more : Nat} (hbyte : p.lower ≤ byte)
    (hmore : p.more = more + 1) :
    0x80 ≤ ((p.codePoint * 64 + (byte - 0x80)) * 64 + (0x80 - 0x80)) * 64 ^ more := by
  have hwide := p.wide
  rw [hmore, Nat.pow_succ, Nat.mul_comm (64 ^ more), ← Nat.mul_assoc] at hwide
  refine Nat.le_trans hwide (Nat.mul_le_mul_right _ ?_)
  omega

/-- A byte behind the first one. -/
def Pending.read (p : Pending) (byte : Nat) : Decoder × List Char :=
  if h : p.lower ≤ byte ∧ byte ≤ p.upper then
    match hmore : p.more with
    | 0 => (none, [Char.ofNat (p.codePoint * 64 + (byte - 0x80))])
    | more + 1 =>
      (some ⟨p.codePoint * 64 + (byte - 0x80), more, 0x80, 0xBF, by decide,
        p.wide_next h.1 hmore⟩, [])
  else
    -- the character breaks off, and the byte is read again
    ((lead byte).1, replacement :: (lead byte).2)

def next (decoder : Decoder) (byte : UInt8) : Decoder × List Char :=
  match decoder with
  | none => lead byte.toNat
  | some p => p.read byte.toNat

def run (decoder : Decoder) : Bytes → Decoder × List Char
  | [] => (decoder, [])
  | byte :: rest =>
    let rest := run (next decoder byte).1 rest
    (rest.1, (next decoder byte).2 ++ rest.2)

/-- What is put for an unfinished character at the end. -/
def flush (decoder : Decoder) : List Char := if decoder.isSome then [replacement] else []

def decode (bytes : Bytes) : List Char := (run none bytes).2 ++ flush (run none bytes).1

theorem run_append (decoder : Decoder) (a b : Bytes) :
    run decoder (a ++ b) =
      ((run (run decoder a).1 b).1, (run decoder a).2 ++ (run (run decoder a).1 b).2) := by
  induction a generalizing decoder with
  | nil => rfl
  | cons byte a ih =>
    simp only [List.cons_append, run, ih, List.append_assoc]

/-! ## Newlines -/

/-- A newline breaks off what stands before it. -/
theorem next_newline (decoder : Decoder) : next decoder 10 = (none, flush decoder ++ ['\n']) := by
  cases decoder with
  | none => rfl
  | some p =>
    have hlow : ¬ (p.lower ≤ 10 ∧ 10 ≤ p.upper) := by
      have := p.tail
      omega
    show p.read 10 = _
    rw [Pending.read, dif_neg hlow]
    rfl

theorem ofNat_ne_newline {n : Nat} (h : n ≠ 10) : Char.ofNat n ≠ '\n' := by
  intro hchar
  by_cases hvalid : n.isValidChar
  · rw [Char.ofNat, dif_pos hvalid] at hchar
    exact h (congrArg Char.toNat hchar)
  · rw [Char.ofNat, dif_neg hvalid] at hchar
    cases hchar

theorem lead_newline {byte : Nat} (h : byte ≠ 10) : '\n' ∉ (lead byte).2 := by
  have hone : '\n' ∉ [Char.ofNat byte] := fun hmem =>
    ofNat_ne_newline h (List.mem_singleton.mp hmem).symm
  have hreplacement : '\n' ∉ [replacement] := by decide
  unfold lead
  split
  · exact hone
  · split_ifs
    all_goals first | exact List.not_mem_nil | exact hreplacement

/-- A newline comes out of a newline only. -/
theorem next_ne_newline (decoder : Decoder) {byte : UInt8} (h : byte ≠ 10) :
    '\n' ∉ (next decoder byte).2 := by
  have hbyte : byte.toNat ≠ 10 := fun hnat => h (UInt8.toNat_inj.mp hnat)
  cases decoder with
  | none => exact lead_newline hbyte
  | some p =>
    show '\n' ∉ (p.read byte.toNat).2
    unfold Pending.read
    split
    · next hin =>
      split
      · next hmore =>
        have hwide := p.wide
        rw [hmore, Nat.pow_zero, Nat.mul_one] at hwide
        have hchar : p.codePoint * 64 + (byte.toNat - 0x80) ≠ 10 := by omega
        exact fun hmem => ofNat_ne_newline hchar (List.mem_singleton.mp hmem).symm
      · exact List.not_mem_nil
    · rw [List.mem_cons, not_or]
      exact ⟨by decide, lead_newline hbyte⟩

theorem run_ne_newline (decoder : Decoder) {bytes : Bytes} (h : 10 ∉ bytes) :
    '\n' ∉ (run decoder bytes).2 := by
  induction bytes generalizing decoder with
  | nil => exact List.not_mem_nil
  | cons byte bytes ih =>
    rw [List.mem_cons, not_or] at h
    rw [run, List.mem_append, not_or]
    exact ⟨next_ne_newline decoder (Ne.symm h.1), ih _ h.2⟩

theorem decode_ne_newline {bytes : Bytes} (h : 10 ∉ bytes) : '\n' ∉ decode bytes := by
  rw [decode, List.mem_append, not_or]
  refine ⟨run_ne_newline none h, ?_⟩
  unfold flush
  split <;> decide

/-- **A line decodes by itself.** -/
theorem decode_newline (a b : Bytes) :
    decode (a ++ 10 :: b) = decode a ++ '\n' :: decode b := by
  rw [decode, run_append, run, next_newline]
  simp only [decode, List.append_assoc, List.cons_append, List.nil_append]

/-- **The text of a file** is the text of its lines. -/
theorem split_decode (bytes : Bytes) :
    Lines.split '\n' (decode bytes) =
      ((Lines.split 10 bytes).1.map decode, decode (Lines.split 10 bytes).2) := by
  have hlines : ∀ lines : List Bytes, (∀ line ∈ lines, 10 ∉ line) → ∀ last : Bytes, 10 ∉ last →
      Lines.split '\n' (decode (lines.flatMap (· ++ [10]) ++ last)) =
        (lines.map decode, decode last) := by
    intro lines
    induction lines with
    | nil => exact fun _ last hlast => Lines.split_of_not_mem (decode_ne_newline hlast)
    | cons line lines ih =>
      intro hnone last hlast
      rw [List.flatMap_cons, List.append_assoc, List.append_assoc, List.singleton_append,
        decode_newline, Lines.split_line (decode_ne_newline (hnone line List.mem_cons_self)),
        ih (fun l hl => hnone l (List.mem_cons_of_mem _ hl)) last hlast]
      rfl
  have hsplit := hlines (Lines.split 10 bytes).1 (fun _ hline => Lines.not_mem_finished hline) _
    (Lines.not_mem_unfinished bytes)
  rwa [Lines.flatMap_split] at hsplit

end Utf8Stream
