import ThreeXhaust.Lib.Utf16
import ThreeXhaust.Lib.Except

/-!
# Values, paths and operations

`chord/src/delta/index.ts`: a revision of a state is strict JSON, and a change of it is a list of
operations that name a place by its path. The containers of a value carry a tag: nothing for plain
data, the identity of the object where code asks whether two containers are the same one. Numbers
are compared as `===` compares them, so `-0` is `0`.
-/

namespace ThreeXhaust.Delta

open Utf16

inductive Value (τ : Type) where
  | null
  | bool (b : Bool)
  | num (n : Json.Decimal)
  | str (s : Text)
  | arr (tag : τ) (items : List (Value τ))
  | obj (tag : τ) (fields : List (Text × Value τ))

/-- Plain data. -/
abbrev JsonValue := Value Unit

def Value.nat {τ : Type} (n : Nat) : Value τ := .num (.ofNat n)

inductive Seg where
  | key (name : Text)
  | index (n : Nat)
deriving DecidableEq

abbrev Path := List Seg

/-- An operation, with payloads of type `V`. -/
inductive Op (V : Type) where
  | r (value : V)
  | s (path : Path) (value : V)
  | d (path : Path)
  | a (path : Path) (text : Text)
  | t (path : Path) (count : Nat)
  | p (path : Path) (index remove : Nat) (items : List V)
  | m (path : Path) (permutation : List Nat)

inductive DeltaError where
  | typeError (message : String)
  | unknownVerb (verb : JsonValue)
  | unsafePath (segment : JsonValue)
  | path (path : Path)
  | pathId (id : Nat)

def DeltaError.message : DeltaError → String
  | .typeError message => message
  | .unknownVerb _ => "unknown op verb"
  | .unsafePath _ => "unsafe path segment"
  | .path _ => "unresolvable path"
  | .pathId id => s!"unresolvable path: {id}"

abbrev Result := Except DeltaError

/-! ## Validation -/

def reservedSegments : List Text := [units "__proto__", units "constructor", units "prototype"]

def Seg.toJson : Seg → JsonValue
  | .key name => .str name
  | .index n => .nat n

def assertSafeSeg : Seg → Result Unit
  | .key name => if name ∈ reservedSegments then .error (.unsafePath (.str name)) else .ok ()
  | .index _ => .ok ()

@[grind =] def assertSafePath : Path → Result Unit
  | [] => .ok ()
  | seg :: path => do
    assertSafeSeg seg
    assertSafePath path

def assertPathArg (path : Path) (nonEmpty : Bool) : Result Unit :=
  if nonEmpty ∧ path = [] then .error (.typeError "path is empty") else assertSafePath path

/-- Every index is in range and stands once: `seen` are those before. -/
@[grind =] def permutes (length : Nat) : List Nat → List Nat → Bool
  | _, [] => true
  | seen, index :: rest => index < length && index ∉ seen && permutes length (index :: seen) rest

def assertPermutation (permutation : List Nat) : Result Unit :=
  if permutes permutation.length [] permutation then .ok ()
  else .error (.typeError "m permutation is not a bijection")

/-- `assertValidOp`; the arity and the types of the fields are those of `Op`. -/
def assertValidOp {V : Type} : Op V → Result Unit
  | .r _ => .ok ()
  | .s path _ => assertPathArg path true
  | .d path => assertPathArg path true
  | .a path _ => assertPathArg path true
  | .t path _ => assertPathArg path true
  | .p path _ _ _ => assertPathArg path false
  | .m path permutation => do
    assertPathArg path false
    assertPermutation permutation

theorem permutes_iff {length : Nat} {seen rest : List Nat} :
    permutes length seen rest = true
      ↔ (∀ i ∈ rest, i < length) ∧ rest.Nodup ∧ ∀ i ∈ rest, i ∉ seen := by
  induction rest generalizing seen with
  | nil => simp [permutes]
  | cons index rest ih =>
    rw [permutes]
    simp only [Bool.and_eq_true, decide_eq_true_eq, ih, List.nodup_cons, List.mem_cons]
    constructor
    · rintro ⟨⟨hlt, hnew⟩, hall, hnodup, hseen⟩
      refine ⟨?_, ⟨fun hmem => (hseen index hmem) (.inl rfl), hnodup⟩, ?_⟩
      · rintro i (rfl | hi)
        · exact hlt
        · exact hall i hi
      · rintro i (rfl | hi)
        · exact hnew
        · exact fun hmem => hseen i hi (.inr hmem)
    · rintro ⟨hall, ⟨hnew, hnodup⟩, hseen⟩
      refine ⟨⟨hall index (.inl rfl), hseen index (.inl rfl)⟩, fun i hi => hall i (.inr hi), hnodup,
        ?_⟩
      rintro i hi (rfl | hmem)
      · exact hnew hi
      · exact hseen i (.inr hi) hmem

theorem assertPermutation_ok {permutation : List Nat} :
    assertPermutation permutation = .ok () ↔
      (∀ i ∈ permutation, i < permutation.length) ∧ permutation.Nodup := by
  unfold assertPermutation
  split
  · next h =>
    have h := permutes_iff.mp h
    exact ⟨fun _ => ⟨h.1, h.2.1⟩, fun _ => rfl⟩
  · next h =>
    simp only [reduceCtorEq, false_iff, not_and]
    intro hall hnodup
    exact h (permutes_iff.mpr ⟨hall, hnodup, fun _ _ => List.not_mem_nil⟩)

def SafePath (path : Path) : Prop := ∀ name, Seg.key name ∈ path → name ∉ reservedSegments

theorem assertSafePath_ok {path : Path} : assertSafePath path = .ok () ↔ SafePath path := by
  induction path with
  | nil => simp [assertSafePath, SafePath]
  | cons seg path ih =>
    have hcons : SafePath (seg :: path)
        ↔ (∀ name, seg = .key name → name ∉ reservedSegments) ∧ SafePath path := by
      simp only [SafePath, List.mem_cons]
      constructor
      · exact fun h => ⟨fun name hname => h name (.inl hname.symm), fun name hname => h name (.inr hname)⟩
      · rintro ⟨hseg, hpath⟩ name (hname | hname)
        · exact hseg name hname.symm
        · exact hpath name hname
    rw [hcons, ← ih, assertSafePath]
    cases seg with
    | index n => simp [assertSafeSeg, bind, Except.bind]
    | key name =>
      by_cases hname : name ∈ reservedSegments
      · simp [assertSafeSeg, hname, bind, Except.bind]
      · simp [assertSafeSeg, hname, bind, Except.bind]

theorem assertPathArg_ok {path : Path} {nonEmpty : Bool} :
    assertPathArg path nonEmpty = .ok () ↔ (nonEmpty = true → path ≠ []) ∧ SafePath path := by
  rw [assertPathArg, ← assertSafePath_ok]
  by_cases h : nonEmpty = true ∧ path = []
  · simp [h]
  · rw [if_neg h]
    simp only [iff_and_self]
    exact fun _ hnonEmpty hpath => h ⟨hnonEmpty, hpath⟩

end ThreeXhaust.Delta
