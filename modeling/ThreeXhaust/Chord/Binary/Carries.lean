import ThreeXhaust.Chord.Binary.Codec

/-!
# Bytes that are read as what was written

`Carries op read a`: what `op` writes, `read` reads as `a`. The rules go field by field, so that
a kind of message is one chain of them.
-/

namespace ThreeXhaust.Chord.Binary

open Json Reader

variable {α β : Type}

/-- What `op` writes, `read` reads as `a`, and nothing else. -/
def Carries (op : Write Unit) (read : Reader α) (a : α) : Prop :=
  ∃ bytes, Writes op bytes ∧ Reads read bytes a

theorem Carries.pure (a : α) : Carries (pure ()) (pure a) a :=
  ⟨[], Writes.pure, Reads.pure a⟩

variable {k : α → Reader β} {a : α} {b : β}

/-- **One field after the other.** -/
theorem Carries.bind {op : Write Unit} {next : Unit → Write Unit} {read : Reader α}
    (h : Carries op read a) (hk : Carries (next ()) (k a) b)
    : Carries (op >>= next) (read >>= k) b := by
  obtain ⟨bytes, hw, hr⟩ := h
  obtain ⟨bytes', hw', hr'⟩ := hk
  exact ⟨bytes ++ bytes', hw.bind hw', hr.bind hr'⟩

theorem Carries.last {op : Write Unit} {read : Reader α} (h : Carries op read a)
    (hk : Reads (k a) [] b) : Carries op (read >>= k) b := by
  obtain ⟨bytes, hw, hr⟩ := h
  exact ⟨bytes, hw, hr.last hk⟩

theorem Carries.map {op : Write Unit} {read : Reader α} (h : Carries op read a) (f : α → β)
    : Carries op (f <$> read) (f a) := by
  obtain ⟨bytes, hw, hr⟩ := h
  exact ⟨bytes, hw, hr.map f⟩

theorem Carries.ensure {op : Write Unit} {c : Prop} [Decidable c] {k : Unit → Reader β} (hc : c)
    (h : Carries op (k ()) b) : Carries op (Reader.ensure c >>= k) b := by
  obtain ⟨bytes, hw, hr⟩ := h
  exact ⟨bytes, hw, (reads_ensure hc).bind hr⟩

theorem Carries.lookup {op : Write Unit} {x : Option α} (hx : x = some a) (h : Carries op (k a) b)
    : Carries op (liftM x >>= k) b := by
  obtain ⟨bytes, hw, hr⟩ := h
  exact ⟨bytes, hw, (Read.reads_some hx).bind hr⟩

/-! ## Fields -/

variable {n : Nat}

theorem carries_varint (h : n ≤ maxSafeInteger) : Carries (varint n) Read.varint n :=
  ⟨_, varint_writes n (Nat.lt_of_le_of_lt h Read.maxSafe_lt), Read.reads_varint h⟩

theorem carries_byte {b : Nat} (h : b < 256) : Carries (byte b) Read.byte b :=
  ⟨_, byte_writes b, Read.reads_byte h⟩

theorem carries_string {s : String} (h : (utf8 s).length < textLimit) :
    Carries (string s) Read.string s := ⟨_, string_writes h, Read.reads_string h⟩

theorem carries_json {v : Value} (hv : v.IsJson) (h : (utf8 v.stringify).length < textLimit) :
    Carries (json v) Read.json v := ⟨_, json_writes h, Read.reads_json hv h⟩

theorem carries_part {p : Part} (h : PartSized p) : Carries (part p) Read.part p.received :=
  ⟨_, part_writes h, Read.reads_part h⟩

/-! ## Lists -/

/-- Each element is carried, so all of them are. -/
theorem Carries.elements {γ : Type} {write : γ → Write Unit} {read : Reader α} (value : γ → α)
    (xs : List γ) (hempty : read [] = none) (h : ∀ x ∈ xs, Carries (write x) read (value x)) :
    ∃ bytes, Writes (each write xs) bytes ∧ xs.length ≤ bytes.length ∧
      Reads (times read xs.length) bytes (xs.map value) := by
  choose! bytes hbytes using h
  have hpos : ∀ x ∈ xs, 0 < (bytes x).length := fun x hx => (hbytes x hx).2.length_pos hempty
  exact ⟨xs.flatMap bytes, Writes.each xs fun x hx => (hbytes x hx).1,
    Read.length_le_flatMap xs hpos, Reads.times xs fun x hx => (hbytes x hx).2⟩

/-- A list behind its length. -/
theorem carries_list {γ : Type} {write : γ → Write Unit} {read : Reader α} (value : γ → α)
    (xs : List γ) (hcount : xs.length ≤ maxSafeInteger) (hempty : read [] = none)
    (h : ∀ x ∈ xs, Carries (write x) read (value x)) :
    Carries (do varint xs.length; each write xs) (Read.list read) (xs.map value) := by
  obtain ⟨bytes, hw, hlen, hr⟩ := Carries.elements value xs hempty h
  exact (carries_varint hcount).bind ⟨bytes, hw, Read.reads_left hr hlen⟩

theorem Carries.list {γ : Type} {write : γ → Write Unit} {read : Reader α}
    {next : Unit → Write Unit} {k : List α → Reader β} (value : γ → α) (xs : List γ)
    (hcount : xs.length ≤ maxSafeInteger) (hempty : read [] = none)
    (h : ∀ x ∈ xs, Carries (write x) read (value x)) (hk : Carries (next ()) (k (xs.map value)) b) :
    Carries (do varint xs.length; (each write xs >>= next)) (Read.list read >>= k) b := by
  have hlist := (carries_list value xs hcount hempty h).bind hk
  rwa [bind_assoc] at hlist

/-! ## Hex -/

theorem isHexDigit_eq {c : Char} (h : isHexDigit c = true) : ∃ n, n < 16 ∧ c = hexDigit n := by
  have hof : Char.ofNat c.toNat = c := Char.ofNat_toNat c
  simp only [isHexDigit, Bool.or_eq_true, Bool.and_eq_true, decide_eq_true_eq] at h
  rcases h with ⟨hlo, hhi⟩ | ⟨hlo, hhi⟩
  · have hlo' : 48 ≤ c.toNat := hlo
    have hhi' : c.toNat ≤ 57 := hhi
    refine ⟨c.toNat - 48, by omega, ?_⟩
    rw [hexDigit, if_pos (by omega), show 48 + (c.toNat - 48) = c.toNat by omega, hof]
  · have hlo' : 97 ≤ c.toNat := hlo
    have hhi' : c.toNat ≤ 102 := hhi
    refine ⟨c.toNat - 87, by omega, ?_⟩
    rw [hexDigit, if_neg (by omega), show 87 + (c.toNat - 87) = c.toNat by omega, hof]

variable {cs : List Char}

/-- Hex digits that are read in pairs are written as they were. -/
theorem hexText_hexPairs (n : Nat) (hcs : ∀ c ∈ cs, isHexDigit c = true) (hlen : cs.length = 2 * n) :
    hexText (hexPairs cs) = cs ∧ (hexPairs cs).length = n := by
  induction n generalizing cs with
  | zero =>
    obtain rfl := List.length_eq_zero_iff.mp hlen
    exact ⟨rfl, rfl⟩
  | succ n ih =>
    match cs, hlen with
    | a :: b :: rest, hlen =>
      obtain ⟨x, hx, rfl⟩ := isHexDigit_eq (hcs a (by simp))
      obtain ⟨y, hy, rfl⟩ := isHexDigit_eq (hcs b (by simp))
      obtain ⟨htext, hcount⟩ : hexText (hexPairs rest) = rest ∧ (hexPairs rest).length = n :=
        ih (fun c hc => hcs c (by simp [hc]))
        (by simp only [List.length_cons] at hlen; omega)
      have hbyte : (UInt8.ofNat (16 * x + y)).toNat = 16 * x + y := by
        rw [UInt8.toNat_ofNat']
        omega
      have hpairs : hexPairs (hexDigit x :: hexDigit y :: rest) =
          UInt8.ofNat (16 * x + y) :: hexPairs rest := by
        rw [hexPairs, hexValue_hexDigit x hx, hexValue_hexDigit y hy]
        rfl
      constructor
      · rw [hpairs]
        show [hexDigit (_ / 16), hexDigit (_ % 16)] ++ hexText (hexPairs rest) = _
        rw [htext, hbyte, show (16 * x + y) / 16 = x by omega,
          show (16 * x + y) % 16 = y by omega]
        rfl
      · rw [hpairs, List.length_cons, hcount]

theorem matchesGroups_single :
    matchesGroups [n] cs = true ↔ cs.length = n ∧ ∀ c ∈ cs, isHexDigit c = true := by
  simp [matchesGroups]

theorem matchesGroups_cons {m : Nat} {ns : List Nat} (h : matchesGroups (n :: m :: ns) cs = true) :
    ∃ group rest, cs = group ++ '-' :: rest ∧ group.length = n ∧
      (∀ c ∈ group, isHexDigit c = true) ∧ matchesGroups (m :: ns) rest = true := by
  rw [matchesGroups] at h
  · simp only [Bool.and_eq_true, beq_iff_eq, List.all_eq_true] at h
    obtain ⟨⟨hlen, hhex⟩, hrest⟩ := h
    split at hrest
    · next rest hdrop =>
      refine ⟨cs.take n, rest, ?_, hlen, hhex, hrest⟩
      rw [← hdrop, List.take_append_drop]
    · cases hrest
  · simp

/-- Hex digits go as half as many bytes. -/
theorem carries_hex {text : List Char} {length : Nat}
    (h : matchesGroups [2 * length] text = true) :
    Carries (rawHex text length) (take length) (hexPairs text) ∧
      hexText (hexPairs text) = text := by
  obtain ⟨hlen, hhex⟩ := matchesGroups_single.1 h
  obtain ⟨htext, hcount⟩ := hexText_hexPairs length hhex hlen
  have hbytes : hex text length = some (hexPairs text) := by
    rw [hex, if_pos h]
  have hw : Writes (rawHex text length) (hexPairs text) := by
    intro out spare
    obtain ⟨spare', hraw⟩ := raw_writes (hexPairs text) out spare
    refine ⟨spare', ?_⟩
    have hget : (liftM (hex text length) : Write Bytes) (.holding out spare) =
        some (hexPairs text, .holding out spare) := by
      rw [hbytes]
      rfl
    rw [rawHex, bind_run hget]
    exact hraw
  exact ⟨⟨_, hw, reads_take _ hcount⟩, htext⟩

theorem filter_hex (h : ∀ c ∈ cs, isHexDigit c = true) : cs.filter (· ≠ '-') = cs := by
  apply List.filter_eq_self.mpr
  intro c hc
  have hhex := h c hc
  simp only [ne_eq, decide_not, Bool.not_eq_true', decide_eq_false_iff_not]
  rintro rfl
  exact absurd hhex (by decide)

theorem slice_middle (start stop : Nat) (front middle back : List Char)
    (hstart : front.length = start) (hstop : start + middle.length = stop) :
    ((front ++ (middle ++ back)).take stop).drop start = middle := by
  subst hstart hstop
  rw [List.take_length_add_append, List.take_left, List.drop_left]

/-- **An incarnation** goes as sixteen bytes and comes back with its dashes. -/
theorem carries_incarnation {s : String} (h : isIncarnation s = true) :
    Carries (rawIncarnation s) Read.incarnation s := by
  obtain ⟨a, rest, ha, hal, hah, h⟩ := matchesGroups_cons h
  obtain ⟨b, rest, rfl, hbl, hbh, h⟩ := matchesGroups_cons h
  obtain ⟨c, rest, rfl, hcl, hch, h⟩ := matchesGroups_cons h
  obtain ⟨d, e, rfl, hdl, hdh, h⟩ := matchesGroups_cons h
  obtain ⟨hel, heh⟩ := matchesGroups_single.1 h
  have hplain : withoutDashes s = a ++ (b ++ (c ++ (d ++ e))) := by
    have hdash : ∀ cs : List Char, ('-' :: cs).filter (· ≠ '-') = cs.filter (· ≠ '-') :=
      fun cs => rfl
    rw [withoutDashes, ha, List.filter_append, hdash, List.filter_append, hdash,
      List.filter_append, hdash, List.filter_append, hdash, filter_hex hah, filter_hex hbh,
      filter_hex hch, filter_hex hdh, filter_hex heh]
  have hgroups : matchesGroups [2 * 16] (withoutDashes s) = true := by
    rw [hplain, matchesGroups_single]
    constructor
    · simp only [List.length_append]
      omega
    · intro x hx
      simp only [List.mem_append] at hx
      rcases hx with hx | hx | hx | hx | hx
      exacts [hah x hx, hbh x hx, hch x hx, hdh x hx, heh x hx]
  obtain ⟨hcarries, htext⟩ := carries_hex hgroups
  have huuid : uuid (hexPairs (withoutDashes s)) = s := by
    rw [uuid, htext, hplain]
    have h8 : (a ++ (b ++ (c ++ (d ++ e)))).take 8 = a := by
      rw [← hal, List.take_left]
    have h12 := slice_middle 8 12 a b (c ++ (d ++ e)) hal (by omega)
    have h16 := slice_middle 12 16 (a ++ b) c (d ++ e) (by simp; omega)
      (by omega)
    have h20 := slice_middle 16 20 (a ++ (b ++ c)) d e (by simp; omega)
      (by omega)
    have hend : (a ++ (b ++ (c ++ d)) ++ e).drop 20 = e :=
      List.drop_left' (by simp only [List.length_append]; omega)
    simp only [List.append_assoc] at h16 h20 hend
    apply String.toList_inj.mp
    rw [ha]
    simp only [h8, h12, h16, h20, hend, String.toList_ofList]
  have hlast := hcarries.last (k := fun bytes => Pure.pure (uuid bytes)) (Reads.pure _)
  rw [huuid] at hlast
  exact hlast

end ThreeXhaust.Chord.Binary
