import ThreeXhaust.Lib.CodePoints
import ThreeXhaust.Lib.Greedy

/-!
# Compacting declared text

`compaction.ts`: `estimateTokens` counts four characters a token and every character of a long
base64 stretch as a token of its own. `compactContext` cuts the head off a text whose estimate is
over the budget and puts a marker in its place. The budget of the cut is in characters, four a
token, less 256 for the marker. A budget is a whole number of tokens: of a larger one than any
estimate nothing is computed, and below that all is exact.

The cut does not see the stretches it keeps, nor can a small budget hold the marker, so the
result may be estimated over the budget:

* **`compactContext_eq`** — what is cut, and what stays behind the marker.
* **`fits_compacted`** — when the result of a cut is within the budget.
* **`compactContext_fits`** — both, for every text and every budget.
-/

namespace ThreeXhaust.PiAdapter

open Utf16

/-! ## The source -/

/-- The class of `BASE64_RUN_RE`, `[A-Za-z0-9+/=_-]`. -/
def isBase64 (u : UInt16) : Bool :=
  (65 ≤ u && u ≤ 90) || (97 ≤ u && u ≤ 122) || (48 ≤ u && u ≤ 57) || u == 43 || u == 47 ||
    u == 61 || u == 95 || u == 45

def BASE64_RUN : Nat := 512

def BASE64_CHAR_WEIGHT : Nat := 4

def weightedChars (text : Text) : Nat :=
  (Greedy.stretches isBase64 BASE64_RUN text).foldl
    (fun chars run => chars + run.length * (BASE64_CHAR_WEIGHT - 1)) text.length

/-- `Math.ceil(chars / 4)`. -/
def estimateTokens (text : Text) : Nat := (weightedChars text + 3) / 4

/-- The class `\s`. -/
def isSpace (u : UInt16) : Bool :=
  (9 ≤ u && u ≤ 13) || u == 32 || u == 0xa0 || u == 0x1680 || (0x2000 ≤ u && u ≤ 0x200a) ||
    u == 0x2028 || u == 0x2029 || u == 0x202f || u == 0x205f || u == 0x3000 || u == 0xfeff

/-- `text.search(/\s\S/u)`. -/
def searchBoundary : Text → Option Nat
  | [] => none
  | [_] => none
  | u :: v :: rest =>
    if isSpace u && !isSpace v then some 0 else (searchBoundary (v :: rest)).map (· + 1)

/-- `text.slice(start, end)`. -/
def slice (text : Text) (start stop : Nat) : Text := (text.take stop).drop start

/-- `createHash("sha256").update(text).digest("hex")`. -/
structure Digest where
  text : Text
  length_text : text.length = 64

def decimal (n : Nat) : Text := (Nat.toDigits 10 n).map ascii

def marker (removed : Nat) (removedDigest : Text) : Text :=
  units "[compacted " ++ decimal removed ++ units " chars · sha256:" ++ removedDigest ++
    units "]\n"

/-- The source's `Math.max(0, ..)` is what a subtraction of naturals does. -/
def compactContext (sha256 : Text → Digest) (text : Text) (maxTokens : Nat) : Except String Text :=
  if maxTokens < 1 then .error "Compaction budget must be at least one token"
  else if estimateTokens text ≤ maxTokens then .ok text
  else
    let keptCharsBudget := maxTokens * 4 - 256
    let tailStart := text.length - keptCharsBudget
    -- Snap forward to a whitespace boundary so the kept tail starts cleanly.
    let boundary := searchBoundary (slice text tailStart (tailStart + 64))
    let adjustedStart :=
      match boundary with
      | none => tailStart
      | some boundary => tailStart + boundary + 1
    let removed := slice text 0 adjustedStart
    let removedDigest := (sha256 removed).text.take 24
    .ok (marker removed.length removedDigest ++ text.drop adjustedStart)

/-! ## Weights -/

theorem foldl_add_sum (runs : List Text) (chars : Nat) :
    runs.foldl (fun chars run => chars + run.length * (BASE64_CHAR_WEIGHT - 1)) chars
      = chars + 3 * (runs.map List.length).sum := by
  induction runs generalizing chars with
  | nil => rfl
  | cons run runs ih =>
    rw [List.foldl_cons, ih, List.map_cons, List.sum_cons]
    show chars + run.length * 3 + _ = _
    omega

theorem weightedChars_eq (text : Text) :
    weightedChars text = text.length + 3 * Greedy.total isBase64 BASE64_RUN text :=
  foldl_add_sum _ _

variable {maxTokens : Nat}

theorem estimateTokens_le_iff {text : Text} :
    estimateTokens text ≤ maxTokens ↔ weightedChars text ≤ 4 * maxTokens := by
  rw [estimateTokens]
  omega

/-! ## The snap -/

theorem searchBoundary_some {text : Text} {i : Nat} (h : searchBoundary text = some i) :
    ∃ head u tail, text = head ++ u :: tail ∧ head.length = i ∧ isSpace u = true ∧ tail ≠ [] := by
  fun_induction searchBoundary text generalizing i with
  | case1 => cases h
  | case2 => cases h
  | case3 u v rest hpair =>
    obtain rfl := Option.some.inj h
    exact ⟨[], u, v :: rest, rfl, rfl, (Bool.and_eq_true_iff.mp hpair).1, List.cons_ne_nil _ _⟩
  | case4 u v rest hpair ih =>
    obtain ⟨j, hj, rfl⟩ := Option.map_eq_some_iff.mp h
    obtain ⟨head, w, tail, htext, hlen, hspace, htail⟩ := ih hj
    exact ⟨u :: head, w, tail, by rw [htext]; rfl, by rw [List.length_cons, hlen], hspace, htail⟩

def wordStart (text : Text) : Nat :=
  match searchBoundary text with
  | none => 0
  | some boundary => boundary + 1

theorem isBase64_of_isSpace {u : UInt16} (h : isSpace u = true) : isBase64 u = false := by
  simp only [isSpace, isBase64, Bool.or_eq_true, Bool.and_eq_true, decide_eq_true_eq,
    beq_iff_eq, Bool.or_eq_false_iff, Bool.and_eq_false_iff, decide_eq_false_iff_not,
    beq_eq_false_iff_ne, UInt16.le_iff_toNat_le, ← UInt16.toNat_inj, ne_eq] at h ⊢
  simp only [UInt16.reduceToNat] at h ⊢
  omega

theorem wordStart_window (text : Text) :
    wordStart (text.take 64) = 0 ∨
    ∃ head u, text = head ++ u :: text.drop (wordStart (text.take 64)) ∧ isSpace u = true ∧
      head.length + 1 = wordStart (text.take 64) ∧ head.length + 1 < 64 := by
  rw [wordStart]
  cases h : searchBoundary (text.take 64) with
  | none => exact Or.inl rfl
  | some i =>
    right
    obtain ⟨head, u, tail, hwindow, rfl, hspace, htail⟩ := searchBoundary_some h
    have hlen : head.length + 1 < 64 := by
      have hle : (text.take 64).length ≤ 64 := List.length_take_le 64 text
      rw [hwindow, List.length_append, List.length_cons] at hle
      have := List.length_pos_iff.mpr htail
      omega
    refine ⟨head, u, ?_, hspace, rfl, hlen⟩
    have hsplit : head ++ u :: (tail ++ text.drop 64) = text := by
      rw [← List.cons_append, ← List.append_assoc, ← hwindow, List.take_append_drop]
    have hdrop : text.drop (head.length + 1) = tail ++ text.drop 64 := by
      conv_lhs => rw [← hsplit]
      rw [List.drop_append, List.drop_eq_nil_of_le (Nat.le_succ _), Nat.add_sub_cancel_left]
      rfl
    show text = head ++ u :: text.drop (head.length + 1)
    rw [hdrop, hsplit]

theorem wordStart_lt (text : Text) : wordStart (text.take 64) < 64 := by
  obtain h | ⟨head, u, -, -, h, hlt⟩ := wordStart_window text <;> omega

theorem wordStart_le (text : Text) : wordStart (text.take 64) ≤ text.length := by
  obtain h | ⟨head, u, htext, -, h, -⟩ := wordStart_window text
  · omega
  · have hlen := congrArg List.length htext
    rw [List.length_append, List.length_cons, List.length_drop] at hlen
    omega

/-- The snap cuts no long run: it ends at a space, and what is before is too short for one. -/
theorem total_drop_wordStart (text : Text) :
    Greedy.total isBase64 BASE64_RUN (text.drop (wordStart (text.take 64)))
      = Greedy.total isBase64 BASE64_RUN text := by
  obtain h | ⟨head, u, htext, hspace, -, hlt⟩ := wordStart_window text
  · rw [h, List.drop_zero]
  · have hhead : Greedy.total isBase64 BASE64_RUN head = 0 := by
      refine Greedy.total_of_length_lt (Nat.succ_pos 511) ?_
      show head.length < 512
      omega
    conv_rhs => rw [htext]
    rw [Greedy.total_append_cons (isBase64_of_isSpace hspace), hhead, Nat.zero_add]

/-! ## The cut -/

/-- How many characters the budget keeps. -/
def keptChars (maxTokens : Nat) : Nat := maxTokens * 4 - 256

/-- Where the kept text starts. -/
def cutAt (text : Text) (maxTokens : Nat) : Nat :=
  let tailStart := text.length - keptChars maxTokens
  tailStart + wordStart ((text.drop tailStart).take 64)

theorem cutAt_le (text : Text) (maxTokens : Nat) : cutAt text maxTokens ≤ text.length := by
  have h := wordStart_le (text.drop (text.length - keptChars maxTokens))
  rw [List.length_drop] at h
  simp only [cutAt]
  omega

/-- **The result**: the text, where its estimate is within the budget, or the marker and what is
kept. -/
theorem compactContext_eq (sha256 : Text → Digest) {text : Text} (hmax : 1 ≤ maxTokens)
    (hover : ¬ estimateTokens text ≤ maxTokens) :
    compactContext sha256 text maxTokens =
      .ok (marker (cutAt text maxTokens)
        ((sha256 (text.take (cutAt text maxTokens))).text.take 24)
        ++ text.drop (cutAt text maxTokens)) := by
  rw [compactContext, if_neg (not_lt.mpr hmax), if_neg hover]
  dsimp only
  rw [show maxTokens * 4 - 256 = keptChars maxTokens from rfl]
  have hwindow : slice text (text.length - keptChars maxTokens)
      (text.length - keptChars maxTokens + 64) =
        (text.drop (text.length - keptChars maxTokens)).take 64 := by
    rw [slice, List.drop_take, Nat.add_sub_cancel_left]
  rw [hwindow]
  have hadjusted : (match searchBoundary
      ((text.drop (text.length - keptChars maxTokens)).take 64) with
      | none => text.length - keptChars maxTokens
      | some boundary => text.length - keptChars maxTokens + boundary + 1)
        = cutAt text maxTokens := by
    rw [cutAt, wordStart]
    cases searchBoundary ((text.drop (text.length - keptChars maxTokens)).take 64) with
    | none => exact (Nat.add_zero _).symm
    | some boundary => exact Nat.add_assoc _ _ _
  rw [hadjusted, slice, List.drop_zero, List.length_take_of_le (cutAt_le text maxTokens)]

/-! ## The marker -/

theorem length_marker (removed : Nat) (digest : Digest) :
    (marker removed (digest.text.take 24)).length = 53 + (Nat.toDigits 10 removed).length := by
  have hdigest : (digest.text.take 24).length = 24 := by
    rw [List.length_take, digest.length_text]
    rfl
  have h1 : (units "[compacted ").length = 11 := by decide
  have h2 : (units " chars · sha256:").length = 16 := by decide
  have h3 : (units "]\n").length = 2 := by decide
  simp only [marker, List.length_append, decimal, List.length_map, hdigest, h1, h2, h3]
  omega

theorem length_toDigits_le {removed : Nat} (h : removed < 2 ^ 53) :
    (Nat.toDigits 10 removed).length ≤ 16 :=
  (Nat.length_toDigits_le_iff (by decide) (by decide)).mpr (Nat.lt_trans h (by decide))

theorem total_marker {removed : Nat} (h : removed < 2 ^ 53) (digest : Digest) (tail : Text) :
    Greedy.total isBase64 BASE64_RUN (marker removed (digest.text.take 24) ++ tail)
      = Greedy.total isBase64 BASE64_RUN tail := by
  have hlen := length_marker removed digest
  have hdigits := length_toDigits_le h
  have hsplit : marker removed (digest.text.take 24) =
      (units "[compacted " ++ decimal removed ++ units " chars · sha256:" ++ digest.text.take 24
        ++ [93]) ++ [10] := by
    rw [marker, List.append_assoc _ [93] [10]]
    rfl
  generalize (units "[compacted " ++ decimal removed ++ units " chars · sha256:" ++
    digest.text.take 24 ++ [93]) = head at hsplit
  rw [hsplit] at hlen ⊢
  have hhead : Greedy.total isBase64 BASE64_RUN head = 0 := by
    refine Greedy.total_of_length_lt (Nat.succ_pos 511) ?_
    rw [List.length_append, List.length_singleton] at hlen
    show head.length < 512
    omega
  rw [List.append_assoc, List.singleton_append, Greedy.total_append_cons (by decide), hhead,
    Nat.zero_add]

/-! ## The budget -/

def HasLongRun (text : Text) : Prop :=
  ∃ run, run <:+: text ∧ BASE64_RUN ≤ run.length ∧ ∀ u ∈ run, isBase64 u = true

/-- What a marker for so many characters is estimated at, in characters. -/
def markerChars (removed : Nat) : Nat := 53 + (Nat.toDigits 10 removed).length

/-- The texts and budgets for which the result is within the budget. -/
inductive FitsBudget (text : Text) (maxTokens : Nat) : Prop where
  /-- The text is within the budget as it stands. -/
  | whole (hfits : estimateTokens text ≤ maxTokens)
  /-- No text is kept, and the marker alone is within the budget. -/
  | marker (hnone : maxTokens ≤ 64) (hmarker : markerChars text.length ≤ 4 * maxTokens)
  /-- No long run stands among the last characters. -/
  | tail (hsome : 64 < maxTokens) (hlong : keptChars maxTokens ≤ text.length)
      (hrun : ¬ HasLongRun (text.drop (text.length - keptChars maxTokens)))
  /-- No characters have to go, and the marker is made good by a first word that goes. -/
  | head (hsome : 64 < maxTokens) (hshort : text.length < keptChars maxTokens)
      (hmarker : markerChars (wordStart (text.take 64)) + weightedChars text
        ≤ 4 * maxTokens + wordStart (text.take 64))

theorem keptChars_eq_zero_iff : keptChars maxTokens = 0 ↔ maxTokens ≤ 64 := by
  unfold keptChars
  omega

theorem weightedChars_compacted {text : Text} (hlen : text.length < 2 ^ 53) (maxTokens : Nat)
    (digest : Digest) :
    weightedChars (marker (cutAt text maxTokens) (digest.text.take 24)
        ++ text.drop (cutAt text maxTokens)) =
      markerChars (cutAt text maxTokens) + (text.length - cutAt text maxTokens)
        + 3 * Greedy.total isBase64 BASE64_RUN
            (text.drop (text.length - keptChars maxTokens)) := by
  have hcut := cutAt_le text maxTokens
  have htotal := total_drop_wordStart (text.drop (text.length - keptChars maxTokens))
  rw [List.drop_drop] at htotal
  rw [weightedChars_eq, total_marker (Nat.lt_of_le_of_lt hcut hlen), List.length_append,
    length_marker, List.length_drop, ← htotal]
  rfl

theorem fits_compacted {text : Text} (hlen : text.length < 2 ^ 53)
    (hover : ¬ estimateTokens text ≤ maxTokens) (digest : Digest) :
    estimateTokens (marker (cutAt text maxTokens) (digest.text.take 24)
        ++ text.drop (cutAt text maxTokens)) ≤ maxTokens ↔ FitsBudget text maxTokens := by
  have hdigits := length_toDigits_le (Nat.lt_of_le_of_lt (cutAt_le text maxTokens) hlen)
  have hcut := cutAt_le text maxTokens
  rw [estimateTokens_le_iff, weightedChars_compacted hlen]
  have hsnap := wordStart_lt (text.drop (text.length - keptChars maxTokens))
  have hword : cutAt text maxTokens = text.length - keptChars maxTokens +
      wordStart ((text.drop (text.length - keptChars maxTokens)).take 64) := rfl
  rcases Nat.eq_zero_or_pos (keptChars maxTokens) with hnone | hsome
  · -- nothing is kept
    have hle := keptChars_eq_zero_iff.mp hnone
    have hall : cutAt text maxTokens = text.length := by omega
    have hnothing : Greedy.total isBase64 BASE64_RUN
        (text.drop (text.length - keptChars maxTokens)) = 0 := by
      rw [hnone, Nat.sub_zero, List.drop_length]
      exact Greedy.total_of_length_lt (Nat.succ_pos 511) (Nat.succ_pos 511)
    rw [hnothing, hall]
    constructor
    · intro h
      exact .marker hle (by omega)
    · rintro (hfits | ⟨-, hmarker⟩ | ⟨hsome, -, -⟩ | ⟨hsome, -, -⟩)
      · exact absurd hfits hover
      · omega
      · exact absurd hle (not_le.mpr hsome)
      · exact absurd hle (not_le.mpr hsome)
  have hlt : 64 < maxTokens := by
    rw [← not_le, ← keptChars_eq_zero_iff]
    omega
  have hkept : keptChars maxTokens = maxTokens * 4 - 256 := rfl
  have hchars : markerChars (cutAt text maxTokens) =
      53 + (Nat.toDigits 10 (cutAt text maxTokens)).length := rfl
  rcases Nat.lt_or_ge text.length (keptChars maxTokens) with hshort | hlong
  · -- the cut starts at the text's own start
    rw [Nat.sub_eq_zero_of_le (Nat.le_of_lt hshort), List.drop_zero, Nat.zero_add] at hword
    rw [Nat.sub_eq_zero_of_le (Nat.le_of_lt hshort), List.drop_zero]
    have hweight := weightedChars_eq text
    constructor
    · intro h
      refine .head hlt hshort ?_
      rw [← hword]
      omega
    · rintro (hfits | ⟨hle, -⟩ | ⟨-, hlong, -⟩ | ⟨-, -, hmarker⟩)
      · exact absurd hfits hover
      · exact absurd hle (not_le.mpr hlt)
      · exact absurd hlong (not_le.mpr hshort)
      · rw [← hword] at hmarker
        omega
  · -- a long run weighs more than the 256 characters and the snap leave room for
    have hrun : Greedy.total isBase64 BASE64_RUN
        (text.drop (text.length - keptChars maxTokens)) = 0 ↔
        ¬ HasLongRun (text.drop (text.length - keptChars maxTokens)) :=
      Greedy.total_eq_zero_iff (Nat.succ_pos 511) _
    have hcases := Greedy.total_cases (p := isBase64) (n := BASE64_RUN)
      (text.drop (text.length - keptChars maxTokens))
    have hsize : BASE64_RUN = 512 := rfl
    constructor
    · intro h
      refine .tail hlt hlong (hrun.mp ?_)
      omega
    · rintro (hfits | ⟨hle, -⟩ | ⟨-, -, hnorun⟩ | ⟨-, hshort, -⟩)
      · exact absurd hfits hover
      · exact absurd hle (not_le.mpr hlt)
      · have hzero := hrun.mpr hnorun
        omega
      · exact absurd hlong (not_le.mpr hshort)

/-- What a text may be compacted to: itself, or a marker that tells how much is gone and the
rest. -/
def IsCompacted (sha256 : Text → Digest) (text result : Text) : Prop :=
  result = text ∨
  ∃ removed suffix, text = removed ++ suffix ∧
    result = marker removed.length ((sha256 removed).text.take 24) ++ suffix

/-- **The result is the text or a marker and its rest, and it is within the budget for the texts and
budgets of `FitsBudget` and for no others.** A string has less than `2 ^ 53` characters. -/
theorem compactContext_fits (sha256 : Text → Digest) {text : Text} {maxTokens : Nat}
    (hlen : text.length < 2 ^ 53) (hmax : 1 ≤ maxTokens) :
    ∃ result, compactContext sha256 text maxTokens = .ok result ∧
      IsCompacted sha256 text result ∧
      (estimateTokens result ≤ maxTokens ↔ FitsBudget text maxTokens) := by
  by_cases hfits : estimateTokens text ≤ maxTokens
  · refine ⟨text, ?_, Or.inl rfl, fun _ => .whole hfits, fun _ => hfits⟩
    rw [compactContext, if_neg (not_lt.mpr hmax), if_pos hfits]
  · refine ⟨_, compactContext_eq sha256 hmax hfits, Or.inr ?_, fits_compacted hlen hfits _⟩
    refine ⟨text.take (cutAt text maxTokens), text.drop (cutAt text maxTokens),
      (List.take_append_drop _ _).symm, ?_⟩
    rw [List.length_take_of_le (cutAt_le text maxTokens)]

def zeroDigest : Digest := ⟨List.replicate 64 48, List.length_replicate⟩

/-- Of 300 letters with a budget of 65 tokens the last four stay. -/
theorem compactContext_fits_letters :
    ∃ result, compactContext (fun _ => zeroDigest) (List.replicate 300 97) 65 = .ok result ∧
      IsCompacted (fun _ => zeroDigest) (List.replicate 300 97) result ∧
      ¬ estimateTokens (List.replicate 300 97) ≤ 65 ∧ estimateTokens result ≤ 65 := by
  have hlength : (List.replicate 300 (97 : UInt16)).length = 300 := List.length_replicate
  have hlen : (List.replicate 300 (97 : UInt16)).length < 2 ^ 53 := by
    rw [hlength]
    decide
  have hone : 1 ≤ 65 := by decide
  obtain ⟨result, hresult, hcompacted, hfits⟩ := compactContext_fits (fun _ => zeroDigest) hlen hone
  have hkept : keptChars 65 ≤ (List.replicate 300 (97 : UInt16)).length := by
    rw [hlength]
    decide
  refine ⟨result, hresult, hcompacted, ?_, hfits.mpr (.tail (by decide) hkept ?_)⟩
  · rw [estimateTokens_le_iff, weightedChars_eq, List.length_replicate]
    omega
  · rintro ⟨run, hrun, hlong, -⟩
    have hle := hrun.length_le
    rw [List.length_drop, List.length_replicate] at hle
    have hsize : BASE64_RUN = 512 := rfl
    omega

/-- 18001 characters of base64 are cut to more than the 4500 tokens they are given: what is kept is
one long run. -/
theorem compactContext_overrun :
    ¬ ∀ (sha256 : Text → Digest) (text : Text) (maxTokens : Nat), 1 ≤ maxTokens →
      ∃ result, compactContext sha256 text maxTokens = .ok result ∧
        estimateTokens result ≤ maxTokens := by
  intro h
  obtain ⟨result, hresult, hfits⟩ :=
    h (fun _ => zeroDigest) (List.replicate 18001 65) 4500 (by decide)
  have hbase : ∀ n, ∀ u ∈ List.replicate n (65 : UInt16), isBase64 u = true := by
    intro n u hu
    rw [List.eq_of_mem_replicate hu]
    decide
  have hkept : keptChars 4500 = 17744 := rfl
  have hover : ¬ estimateTokens (List.replicate 18001 65) ≤ 4500 := by
    rw [estimateTokens_le_iff, weightedChars_eq, List.length_replicate]
    omega
  rw [compactContext_eq _ (by decide) hover, Except.ok.injEq] at hresult
  have hlen : (List.replicate 18001 (65 : UInt16)).length < 2 ^ 53 := by
    rw [List.length_replicate]
    decide
  rw [← hresult, fits_compacted hlen hover] at hfits
  rcases hfits with hfits | ⟨hnone, -⟩ | ⟨-, -, hrun⟩ | ⟨-, hshort, -⟩
  · exact hover hfits
  · omega
  · rw [hkept, List.length_replicate, List.drop_replicate] at hrun
    refine hrun ⟨List.replicate 17744 65, List.infix_rfl, ?_, hbase _⟩
    rw [List.length_replicate]
    show 512 ≤ 17744
    omega
  · rw [hkept, List.length_replicate] at hshort
    omega

end ThreeXhaust.PiAdapter
