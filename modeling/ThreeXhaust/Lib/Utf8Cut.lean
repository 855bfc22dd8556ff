import Mathlib.Data.List.Sort
import Mathlib.Data.List.TakeWhile
import ThreeXhaust.Lib.Bytes

/-!
# Cutting texts at byte positions

A text is a list of characters, and programs cut it at positions of its UTF-8 bytes. `splitAtByte`
is such a cut, none inside a character.

* `Boundary` — a position between two characters. It is one exactly where no continuation byte
  stands (`boundary_of_not_continuation`), in particular around a newline (`boundary_newline`).
* `newlines` — the positions of the newlines, and `below` those before a position, last first. They
  are what a search from the back meets (`below_cons`), and split with the bytes (`below_append`).
-/

def isContinuation (b : UInt8) : Bool := b &&& 0xC0 == 0x80

theorem isContinuation_mark (x : UInt8) : isContinuation ((x &&& 0x3f) ||| 0x80) = true := by
  have h : ∀ n : Fin 256, isContinuation ((UInt8.ofFin n &&& 0x3f) ||| 0x80) = true := by
    decide +kernel
  exact h x.toFin

theorem isContinuation_tail (c : Char) :
    ∀ b ∈ (String.utf8EncodeChar c).tail, isContinuation b = true := by
  have hpos := c.utf8Size_pos
  have hle := c.utf8Size_le_four
  intro b hb
  obtain hone | htwo | hthree | hfour : c.utf8Size = 1 ∨ c.utf8Size = 2 ∨ c.utf8Size = 3 ∨
      c.utf8Size = 4 := by omega
  · rw [String.utf8EncodeChar_eq_singleton hone] at hb
    cases hb
  · rw [String.utf8EncodeChar_eq_cons_cons htwo] at hb
    simp only [List.tail_cons, List.mem_cons, List.not_mem_nil, or_false] at hb
    rw [hb]
    exact isContinuation_mark _
  · rw [String.utf8EncodeChar_eq_cons_cons_cons hthree] at hb
    simp only [List.tail_cons, List.mem_cons, List.not_mem_nil, or_false] at hb
    rcases hb with rfl | rfl
    all_goals exact isContinuation_mark _
  · rw [String.utf8EncodeChar_eq_cons_cons_cons_cons hfour] at hb
    simp only [List.tail_cons, List.mem_cons, List.not_mem_nil, or_false] at hb
    rcases hb with rfl | rfl | rfl
    all_goals exact isContinuation_mark _

theorem isContinuation_head (c : Char) :
    ∀ b, (String.utf8EncodeChar c).head? = some b → isContinuation b = false := by
  have hlead : ∀ n : Fin 256, isContinuation ((UInt8.ofFin n &&& 0x1f) ||| 0xc0) = false
      ∧ isContinuation ((UInt8.ofFin n &&& 0x0f) ||| 0xe0) = false
      ∧ isContinuation ((UInt8.ofFin n &&& 0x07) ||| 0xf0) = false
      ∧ (n.val ≤ 127 → isContinuation (UInt8.ofFin n) = false) := by
    decide +kernel
  have hpos := c.utf8Size_pos
  have hle := c.utf8Size_le_four
  intro b hb
  obtain hone | htwo | hthree | hfour : c.utf8Size = 1 ∨ c.utf8Size = 2 ∨ c.utf8Size = 3 ∨
      c.utf8Size = 4 := by omega
  · rw [String.utf8EncodeChar_eq_singleton hone] at hb
    have hval : c.val.toNat ≤ 127 := UInt32.le_iff_toNat_le.mp (Char.utf8Size_eq_one_iff.mp hone)
    rw [← Option.some.inj hb]
    apply (hlead c.val.toUInt8.toFin).2.2.2
    show c.val.toUInt8.toNat ≤ 127
    rw [UInt32.toNat_toUInt8]
    exact Nat.le_trans (Nat.mod_le _ _) hval
  · rw [String.utf8EncodeChar_eq_cons_cons htwo] at hb
    rw [← Option.some.inj hb]
    exact (hlead _).1
  · rw [String.utf8EncodeChar_eq_cons_cons_cons hthree] at hb
    rw [← Option.some.inj hb]
    exact (hlead _).2.1
  · rw [String.utf8EncodeChar_eq_cons_cons_cons_cons hfour] at hb
    rw [← Option.some.inj hb]
    exact (hlead _).2.2.1

/-! ## Boundaries -/

/-- A position between two characters, or at an end. -/
def Boundary (cs : List Char) (n : Nat) : Prop :=
  ∃ a b, cs = a ++ b ∧ (utf8Chars a).length = n

theorem boundary_zero (cs : List Char) : Boundary cs 0 := ⟨[], cs, rfl, rfl⟩

theorem boundary_end (cs : List Char) : Boundary cs (utf8Chars cs).length :=
  ⟨cs, [], (List.append_nil cs).symm, rfl⟩

theorem Boundary.cons {c : Char} {cs : List Char} {n : Nat} (h : Boundary cs n) :
    Boundary (c :: cs) ((String.utf8EncodeChar c).length + n) := by
  obtain ⟨a, b, rfl, hn⟩ := h
  exact ⟨c :: a, b, rfl, by rw [utf8Chars_cons, List.length_append, hn]⟩

theorem boundary_of_not_continuation {cs : List Char} {n : Nat} (hn : n ≤ (utf8Chars cs).length)
    (h : ∀ b, (utf8Chars cs)[n]? = some b → isContinuation b = false) : Boundary cs n := by
  induction cs generalizing n with
  | nil =>
    obtain rfl : n = 0 := Nat.le_zero.mp hn
    exact boundary_zero []
  | cons c cs ih =>
    rw [utf8Chars_cons] at h hn
    rw [List.length_append] at hn
    rcases Nat.lt_or_ge n (String.utf8EncodeChar c).length with hin | hout
    · -- inside the first character only its start will do
      cases n with
      | zero => exact boundary_zero _
      | succ n =>
        rw [List.getElem?_append_left hin, List.getElem?_eq_getElem hin] at h
        have hmem : (String.utf8EncodeChar c)[n + 1] ∈ (String.utf8EncodeChar c).tail := by
          rw [List.mem_iff_getElem]
          exact ⟨n, by rw [List.length_tail]; omega, List.getElem_tail _⟩
        have hcontinues := isContinuation_tail c _ hmem
        rw [h _ rfl] at hcontinues
        cases hcontinues
    · have hrest := ih (n := n - (String.utf8EncodeChar c).length) (by omega) (by
        intro b hb
        apply h
        rw [List.getElem?_append_right hout]
        exact hb)
      have hcons := hrest.cons (c := c)
      rwa [Nat.add_sub_cancel' hout] at hcons

theorem boundary_newline {cs : List Char} {n : Nat} (h : (utf8Chars cs)[n]? = some 10) :
    Boundary cs n ∧ Boundary cs (n + 1) := by
  have hlt : n < (utf8Chars cs).length := (List.getElem?_eq_some_iff.mp h).1
  have hat : Boundary cs n := by
    apply boundary_of_not_continuation (Nat.le_of_lt hlt)
    intro b hb
    obtain rfl : 10 = b := Option.some.inj (h.symm.trans hb)
    decide
  refine ⟨hat, ?_⟩
  obtain ⟨a, b, rfl, hn⟩ := hat
  subst hn
  rw [utf8Chars_append, List.getElem?_append_right (Nat.le_refl _), Nat.sub_self] at h
  cases b with
  | nil => cases h
  | cons c b =>
    have hpos := utf8EncodeChar_length_pos c
    rw [utf8Chars_cons, List.getElem?_append_left hpos, List.getElem?_eq_getElem hpos] at h
    have hfirst := Option.some.inj h
    have hc := toNat_of_mem_utf8EncodeChar (List.getElem_mem hpos) (by rw [hfirst]; decide)
    rw [hfirst] at hc
    obtain rfl : c = '\n' := Char.toNat_inj.mp hc
    refine ⟨a ++ ['\n'], b, by rw [List.append_assoc]; rfl, ?_⟩
    rw [utf8Chars_append, List.length_append]
    rfl

/-! ## Moving on to a boundary -/

/-- The first position from `index` on where no continuation byte stands. -/
def skipContinuation (bytes : Bytes) (index : Nat) : Nat :=
  index + ((bytes.drop index).takeWhile isContinuation).length

theorem not_of_getElem?_takeWhile {l : Bytes} {p : UInt8 → Bool} {b : UInt8}
    (h : l[(l.takeWhile p).length]? = some b) : p b = false := by
  induction l with
  | nil => cases h
  | cons x l ih =>
    cases hx : p x with
    | false =>
      rw [List.takeWhile_cons, hx] at h
      obtain rfl := Option.some.inj h
      exact hx
    | true =>
      rw [List.takeWhile_cons, hx] at h
      exact ih h

theorem skipContinuation_le {bytes : Bytes} {index : Nat} (h : index ≤ bytes.length) :
    skipContinuation bytes index ≤ bytes.length := by
  have hlen := (List.takeWhile_sublist (l := bytes.drop index) isContinuation).length_le
  rw [List.length_drop] at hlen
  rw [skipContinuation]
  omega

theorem boundary_skipContinuation (cs : List Char) {index : Nat}
    (h : index ≤ (utf8Chars cs).length) :
    Boundary cs (skipContinuation (utf8Chars cs) index) := by
  apply boundary_of_not_continuation (skipContinuation_le h)
  intro b hb
  rw [skipContinuation, ← List.getElem?_drop] at hb
  exact not_of_getElem?_takeWhile hb

theorem skipContinuation_le_add (cs : List Char) {index : Nat}
    (h : index ≤ (utf8Chars cs).length) :
    skipContinuation (utf8Chars cs) index ≤ index + 3 := by
  obtain ⟨front, rest, rfl, hlength⟩ := boundary_skipContinuation cs h
  rcases List.eq_nil_or_concat front with rfl | ⟨init, c, rfl⟩
  · rw [← hlength]
    exact Nat.zero_le _
  · -- the character in front of the boundary begins before `index`
    rw [List.concat_eq_append, utf8Chars_append, List.length_append, utf8Chars_cons, utf8Chars_nil,
      List.append_nil] at hlength
    have hfour := utf8EncodeChar_length_le c
    by_contra hfar
    rw [List.concat_eq_append] at hfar
    have hin : (utf8Chars init).length - index <
        (((utf8Chars (init ++ [c] ++ rest)).drop index).takeWhile isContinuation).length := by
      have hpos := utf8EncodeChar_length_pos c
      rw [skipContinuation] at hlength hfar
      omega
    have hhead : (((utf8Chars (init ++ [c] ++ rest)).drop index).takeWhile isContinuation)[
        (utf8Chars init).length - index] ∈ (String.utf8EncodeChar c).head? := by
      rw [(List.takeWhile_prefix _).getElem hin, Option.mem_def, ← List.getElem?_eq_getElem,
        List.getElem?_drop, Nat.add_sub_cancel' (by omega), List.append_assoc, utf8Chars_append,
        List.getElem?_append_right (Nat.le_refl _), Nat.sub_self, List.singleton_append,
        utf8Chars_cons, List.getElem?_append_left (utf8EncodeChar_length_pos c),
        List.head?_eq_getElem?]
    have hcontinues := List.mem_takeWhile_imp (List.getElem_mem hin)
    rw [isContinuation_head c _ hhead] at hcontinues
    cases hcontinues

/-! ## Cuts -/

@[grind =] def splitAtByte : Nat → List Char → Option (List Char × List Char)
  | 0, cs => some ([], cs)
  | _ + 1, [] => none
  | n + 1, c :: cs =>
    if (String.utf8EncodeChar c).length ≤ n + 1 then
      (splitAtByte (n + 1 - (String.utf8EncodeChar c).length) cs).map fun (a, b) => (c :: a, b)
    else none

theorem splitAtByte_append (a b : List Char) :
    splitAtByte (utf8Chars a).length (a ++ b) = some (a, b) := by
  induction a with
  | nil => exact splitAtByte.eq_1 b
  | cons c a ih =>
    rw [utf8Chars_cons, List.length_append, List.cons_append]
    have hpos := utf8EncodeChar_length_pos c
    obtain ⟨n, hn⟩ : ∃ n, (String.utf8EncodeChar c).length + (utf8Chars a).length = n + 1 :=
      ⟨_, (Nat.succ_pred_eq_of_pos (by omega)).symm⟩
    rw [hn, splitAtByte, if_pos (by omega), ← hn, Nat.add_sub_cancel_left, ih]
    rfl

theorem Boundary.split {cs : List Char} {n : Nat} (h : Boundary cs n) :
    ∃ a b, cs = a ++ b ∧ (utf8Chars a).length = n ∧ splitAtByte n cs = some (a, b) := by
  obtain ⟨a, b, rfl, rfl⟩ := h
  exact ⟨a, b, rfl, rfl, splitAtByte_append a b⟩

theorem eq_nil_of_utf8Chars {cs : List Char} (h : (utf8Chars cs).length = 0) : cs = [] := by
  cases cs with
  | nil => rfl
  | cons c cs =>
    have hpos := utf8EncodeChar_length_pos c
    rw [utf8Chars_cons, List.length_append] at h
    omega

/-! ## Newlines -/

theorem mem_utf8EncodeChar_newline {c : Char} : 10 ∈ String.utf8EncodeChar c ↔ c = '\n' := by
  constructor
  · intro h
    exact Char.toNat_inj.mp (toNat_of_mem_utf8EncodeChar h (by decide))
  · rintro rfl
    decide

theorem count_newline (cs : List Char) : (utf8Chars cs).count 10 = cs.count '\n' := by
  induction cs with
  | nil => rfl
  | cons c cs ih =>
    rw [utf8Chars_cons, List.count_append, ih, List.count_cons, Nat.add_comm]
    congr 1
    by_cases hc : c = '\n'
    · rw [hc, if_pos (by decide)]
      decide
    · rw [if_neg (by simpa using hc)]
      exact List.count_eq_zero.mpr (fun h => hc (mem_utf8EncodeChar_newline.mp h))

theorem getLast?_newline (cs : List Char) :
    (utf8Chars cs).getLast? = some 10 ↔ cs.getLast? = some '\n' := by
  cases h : cs.getLast? with
  | none =>
    rw [List.getLast?_eq_none_iff] at h
    subst h
    simp
  | some c =>
    obtain ⟨init, rfl⟩ := List.getLast?_eq_some_iff.mp h
    have hpos := utf8EncodeChar_length_pos c
    rw [utf8Chars_append, utf8Chars_cons, utf8Chars_nil, List.append_nil,
      List.getLast?_append_of_ne_nil _ (List.length_pos_iff.mp hpos), Option.some_inj]
    constructor
    · intro hlast
      exact mem_utf8EncodeChar_newline.mp (List.mem_of_getLast? hlast)
    · rintro rfl
      decide

@[grind =] def newlines : Bytes → List Nat
  | [] => []
  | b :: rest => (if b = 10 then [0] else []) ++ (newlines rest).map (· + 1)

theorem mem_newlines {bytes : Bytes} {i : Nat} : i ∈ newlines bytes ↔ bytes[i]? = some 10 := by
  induction bytes generalizing i with
  | nil => simp [newlines]
  | cons b rest ih =>
    rw [newlines, List.mem_append, List.mem_map]
    cases i with
    | zero =>
      by_cases hb : b = 10
      · simp [hb]
      · simp [hb]
    | succ i =>
      rw [List.getElem?_cons_succ, ← ih]
      by_cases hb : b = 10
      · simp [hb]
      · simp [hb]

theorem lt_of_mem_newlines {bytes : Bytes} {i : Nat} (h : i ∈ newlines bytes) :
    i < bytes.length := (List.getElem?_eq_some_iff.mp (mem_newlines.mp h)).1

theorem newlines_append (bytes bytes' : Bytes) :
    newlines (bytes ++ bytes') = newlines bytes ++ (newlines bytes').map (bytes.length + ·) := by
  induction bytes with
  | nil => simp [newlines]
  | cons b rest ih =>
    rw [List.cons_append, newlines, ih, newlines, List.map_append, List.map_map, List.append_assoc]
    congr 2
    apply List.map_congr_left
    intro i _
    show rest.length + i + 1 = (rest.length + 1) + i
    omega

theorem newlines_length (bytes : Bytes) : (newlines bytes).length = bytes.count 10 := by
  induction bytes with
  | nil => rfl
  | cons b rest ih =>
    rw [newlines, List.length_append, List.length_map, ih, List.count_cons]
    by_cases hb : b = 10
    · rw [if_pos hb, if_pos (by simpa using hb), List.length_singleton]
      omega
    · rw [if_neg hb, if_neg (by simpa using hb), List.length_nil]
      omega

theorem newlines_sorted (bytes : Bytes) : (newlines bytes).Pairwise (· < ·) := by
  induction bytes with
  | nil => exact List.Pairwise.nil
  | cons b rest ih =>
    rw [newlines, List.pairwise_append]
    refine ⟨?_, List.pairwise_map.mpr (ih.imp fun h => Nat.succ_lt_succ h), ?_⟩
    · split
      · exact List.pairwise_singleton _ _
      · exact List.Pairwise.nil
    · intro i hi j hj
      obtain ⟨k, -, rfl⟩ := List.mem_map.mp hj
      split at hi
      · obtain rfl := List.mem_singleton.mp hi
        exact Nat.succ_pos k
      · cases hi

def below (bytes : Bytes) (n : Nat) : List Nat := ((newlines bytes).filter (· < n)).reverse

theorem mem_below {bytes : Bytes} {n i : Nat} :
    i ∈ below bytes n ↔ bytes[i]? = some 10 ∧ i < n := by
  rw [below, List.mem_reverse, List.mem_filter, mem_newlines, decide_eq_true_iff]

theorem below_zero (bytes : Bytes) : below bytes 0 = [] := by simp [below]

theorem below_length_le (bytes : Bytes) (n : Nat) : (below bytes n).length ≤ bytes.length := by
  rw [below, List.length_reverse]
  have h := List.length_filter_le (fun i => decide (i < n)) (newlines bytes)
  have hcount := List.count_le_length (a := (10 : UInt8)) (l := bytes)
  rw [newlines_length] at h
  omega

theorem below_cons {bytes : Bytes} {n i : Nat} {rest : List Nat} (h : below bytes n = i :: rest) :
    rest = below bytes i := by
  have hsorted : (below bytes n).Pairwise (· > ·) :=
    List.pairwise_reverse.mpr ((newlines_sorted bytes).filter _)
  have hi : i < n := (mem_below.mp (h ▸ List.mem_cons_self)).2
  have hsorted' : (below bytes i).Pairwise (· > ·) :=
    List.pairwise_reverse.mpr ((newlines_sorted bytes).filter _)
  have hrest := h ▸ hsorted
  rw [List.pairwise_cons] at hrest
  -- two descending lists with the same members
  apply List.Perm.eq_of_pairwise (fun a b _ _ hab hba => by omega) hrest.2 hsorted'
  rw [List.perm_ext_iff_of_nodup (hrest.2.imp fun h => Nat.ne_of_gt h)
    (hsorted'.imp fun h => Nat.ne_of_gt h)]
  intro j
  have hmem : j ∈ below bytes n ↔ j = i ∨ j ∈ rest := by rw [h, List.mem_cons]
  rw [mem_below] at hmem ⊢
  constructor
  · intro hj
    exact ⟨(hmem.mpr (Or.inr hj)).1, hrest.1 j hj⟩
  · rintro ⟨hj, hlt⟩
    rcases hmem.mp ⟨hj, Nat.lt_trans hlt hi⟩ with rfl | hj
    · exact absurd hlt (Nat.lt_irrefl _)
    · exact hj

theorem below_append (bytes bytes' : Bytes) (n : Nat) :
    below (bytes ++ bytes') (bytes.length + n) =
      (below bytes' n).map (bytes.length + ·) ++ (newlines bytes).reverse := by
  rw [below, newlines_append, List.filter_append, List.reverse_append, List.filter_map]
  congr 1
  · rw [below, List.map_reverse]
    congr 3
    funext i
    show decide (bytes.length + i < bytes.length + n) = decide (i < n)
    simp
  · rw [List.filter_eq_self.mpr]
    intro i hi
    have hlt := lt_of_mem_newlines hi
    rw [decide_eq_true_iff]
    omega

theorem below_all (bytes : Bytes) : below bytes bytes.length = (newlines bytes).reverse := by
  rw [below, List.filter_eq_self.mpr]
  intro i hi
  rw [decide_eq_true_iff]
  exact lt_of_mem_newlines hi

theorem below_length_mono (bytes : Bytes) {n m : Nat} (h : n ≤ m) :
    (below bytes n).length ≤ (below bytes m).length := by
  rw [below, below, List.length_reverse, List.length_reverse]
  apply List.Sublist.length_le
  apply List.monotone_filter_right
  intro i hi
  rw [decide_eq_true_iff] at hi ⊢
  exact Nat.lt_of_lt_of_le hi h

theorem below_length_succ (bytes : Bytes) (n : Nat) :
    (below bytes (n + 1)).length ≤ (below bytes n).length + 1 := by
  cases h : below bytes (n + 1) with
  | nil => exact Nat.zero_le _
  | cons i rest =>
    have hi : i < n + 1 := (mem_below.mp (h ▸ List.mem_cons_self)).2
    have hmono := below_length_mono bytes (Nat.le_of_lt_succ hi)
    rw [List.length_cons, below_cons h]
    omega

/-- From a newline on, there are as many newlines as its position in their list leaves. -/
theorem le_count_of_newlines {bytes bytes' : Bytes} {i : Nat}
    (h : (newlines (bytes ++ bytes'))[i]? = some bytes.length) :
    (newlines (bytes ++ bytes')).length - i ≤ bytes'.count 10 := by
  rw [newlines_append] at h
  rcases Nat.lt_or_ge i (newlines bytes).length with hin | hout
  · rw [List.getElem?_append_left hin] at h
    exact absurd (lt_of_mem_newlines (List.mem_of_getElem? h)) (Nat.lt_irrefl _)
  · rw [newlines_length] at hout
    rw [newlines_length, List.count_append]
    omega
