import ThreeXhaust.Delta.Op

/-!
# Operations on the wire

The `encoder` and `decoder` of `chord/src/delta/index.ts`. A path is written out at its first use,
defined with an id at its second, and left out when the operation before in the same batch had it
too. Both sides keep a dictionary; a replacement empties both, so a reader may start there.
-/

namespace ThreeXhaust.Delta

open Utf16

/-! ## The wire -/

inductive PathRef where
  | inline (path : Path)
  | id (n : Nat)

/-- What crosses a boundary. A reference that is left out is the path of the operation before. -/
inductive WireOp where
  | r (value : JsonValue)
  | s (ref : Option PathRef) (value : JsonValue)
  | d (ref : Option PathRef)
  | a (ref : Option PathRef) (text : Text)
  | t (ref : Option PathRef) (count : Nat)
  | p (ref : Option PathRef) (index remove : Nat) (items : List JsonValue)
  | m (ref : Option PathRef) (permutation : List Nat)
  | define (id : Nat) (path : Path)

def pathJson (path : Path) : JsonValue := .arr () (path.map Seg.toJson)

def PathRef.toJson : PathRef → JsonValue
  | .inline path => pathJson path
  | .id n => .nat n

def refFields (ref : Option PathRef) : List JsonValue := ref.toList.map PathRef.toJson

def WireOp.tuple : WireOp → JsonValue
  | .r value => .arr () [.str (units "r"), value]
  | .s ref value => .arr () (.str (units "s") :: refFields ref ++ [value])
  | .d ref => .arr () (.str (units "d") :: refFields ref)
  | .a ref text => .arr () (.str (units "a") :: refFields ref ++ [.str text])
  | .t ref count => .arr () (.str (units "t") :: refFields ref ++ [.nat count])
  | .p ref index remove items =>
    .arr () (.str (units "p") :: refFields ref ++ [.nat index, .nat remove, .arr () items])
  | .m ref permutation =>
    .arr () (.str (units "m") :: refFields ref ++ [.arr () (permutation.map .nat)])
  | .define id path => .arr () [.str (units "#"), .nat id, pathJson path]

/-! ## Validation -/

/-- `Number.isInteger(value) && value >= 0`. -/
def natField (value : JsonValue) (message : String) : Result Nat :=
  match value with
  | .num n =>
    match n.toNat? with
    | some n => .ok n
    | none => .error (.typeError message)
  | _ => .error (.typeError message)

def strField (value : JsonValue) (message : String) : Result Text :=
  match value with
  | .str s => .ok s
  | _ => .error (.typeError message)

def arrField (value : JsonValue) (message : String) : Result (List JsonValue) :=
  match value with
  | .arr _ items => .ok items
  | _ => .error (.typeError message)

def safeSeg (value : JsonValue) : Result Seg :=
  match value with
  | .str name => if name ∈ reservedSegments then .error (.unsafePath value) else .ok (.key name)
  | .num n =>
    match n.toNat? with
    | some n => .ok (.index n)
    | none => .error (.unsafePath value)
  | _ => .error (.unsafePath value)

def okRef (value : JsonValue) : Result PathRef :=
  match value with
  | .num n =>
    match n.toNat? with
    | some id => .ok (.id id)
    | none => .error (.typeError "bad path id")
  | .arr _ segs => (segs.mapM safeSeg).map .inline
  | _ => .error (.typeError "path is not an array")

def okPermutation (value : JsonValue) : Result (List Nat) := do
  let items ← arrField value "m permutation is not an array"
  let permutation ← items.mapM (natField · "m permutation is not a bijection")
  assertPermutation permutation
  .ok permutation

def okSplice (ref : Option PathRef) (index remove items : JsonValue) : Result WireOp := do
  let index ← natField index "p index"
  let remove ← natField remove "p remove"
  let items ← arrField items "p items"
  .ok (.p ref index remove items)

/-- `assertValidWireOp`: the number of fields tells whether there is a reference. -/
def assertValidWireOp (op : JsonValue) : Result WireOp :=
  match op with
  | .arr _ (.str verb :: fields) =>
    if verb = units "r" then
      match fields with
      | [value] => .ok (.r value)
      | _ => .error (.typeError "r arity")
    else if verb = units "s" then
      match fields with
      | [ref, value] => (okRef ref).map fun ref => .s (some ref) value
      | [value] => .ok (.s none value)
      | _ => .error (.typeError "s arity")
    else if verb = units "d" then
      match fields with
      | [ref] => (okRef ref).map fun ref => .d (some ref)
      | [] => .ok (.d none)
      | _ => .error (.typeError "d arity")
    else if verb = units "a" then
      match fields with
      | [ref, text] => do
        let ref ← okRef ref
        let text ← strField text "a value"
        .ok (.a (some ref) text)
      | [text] => (strField text "a value").map fun text => .a none text
      | _ => .error (.typeError "a arity")
    else if verb = units "t" then
      match fields with
      | [ref, count] => do
        let ref ← okRef ref
        let count ← natField count "t count"
        .ok (.t (some ref) count)
      | [count] => (natField count "t count").map fun count => .t none count
      | _ => .error (.typeError "t arity")
    else if verb = units "p" then
      match fields with
      | [ref, index, remove, items] => do
        let ref ← okRef ref
        okSplice (some ref) index remove items
      | [index, remove, items] => okSplice none index remove items
      | _ => .error (.typeError "p arity")
    else if verb = units "m" then
      match fields with
      | [ref, permutation] => do
        let ref ← okRef ref
        let permutation ← okPermutation permutation
        .ok (.m (some ref) permutation)
      | [permutation] => (okPermutation permutation).map fun permutation => .m none permutation
      | _ => .error (.typeError "m arity")
    else if verb = units "#" then
      match fields with
      | [id, .arr _ path] => do
        let id ← natField id "# shape"
        let path ← path.mapM safeSeg
        .ok (.define id path)
      | _ => .error (.typeError "# shape")
    else .error (.unknownVerb (.str verb))
  | .arr _ (verb :: _) => .error (.unknownVerb verb)
  | _ => .error (.typeError "op is not a tuple")

/-! ## The encoder -/

def segText : Seg → Text
  | .key name => quote name
  | .index n => decimalText (.ofNat n)

@[grind =] def segTexts : Path → Text
  | [] => [93]
  | [seg] => segText seg ++ [93]
  | seg :: next :: path => segText seg ++ 44 :: segTexts (next :: path)

/-- `JSON.stringify(path)`. -/
def pathKey (path : Path) : Text := 91 :: segTexts path

structure Encoder where
  seen : List Text
  ids : List (Text × Nat)
  nextId : Nat

def Encoder.init : Encoder := ⟨[], [], 0⟩

def Encoder.id? (encoder : Encoder) (key : Text) : Option Nat :=
  (encoder.ids.find? (·.1 = key)).map Prod.snd

/-- The value of a replacement; of another operation its path, and what it is on the wire with a
reference in the place of the path. -/
def Op.route : Op JsonValue → JsonValue ⊕ (Path × (Option PathRef → WireOp))
  | .r value => .inl value
  | .s path value => .inr (path, (.s · value))
  | .d path => .inr (path, .d)
  | .a path text => .inr (path, (.a · text))
  | .t path count => .inr (path, (.t · count))
  | .p path index remove items => .inr (path, (.p · index remove items))
  | .m path permutation => .inr (path, (.m · permutation))

structure Referred where
  definition : List WireOp
  ref : PathRef
  encoder : Encoder

def Encoder.refer (encoder : Encoder) (path : Path) : Referred :=
  match encoder.id? (pathKey path) with
  | some id => ⟨[], .id id, encoder⟩
  | none =>
    if pathKey path ∈ encoder.seen then
      -- second use: define, then reference
      { definition := [.define encoder.nextId path]
        ref := .id encoder.nextId
        encoder := { encoder with
          ids := encoder.ids ++ [(pathKey path, encoder.nextId)]
          nextId := encoder.nextId + 1 } }
    else ⟨[], .inline path, { encoder with seen := pathKey path :: encoder.seen }⟩

/-- The loop of `encode`; `previous` is the key of the last path in this batch. -/
@[grind =] def encodeOps (encoder : Encoder) (previous : Option Text) :
    List (Op JsonValue) → List WireOp × Encoder
  | [] => ([], encoder)
  | op :: ops =>
    match op.route with
    | .inl value =>
      let rest := encodeOps .init none ops
      (.r value :: rest.1, rest.2)
    | .inr (path, wire) =>
      if some (pathKey path) = previous then
        let rest := encodeOps encoder previous ops
        (wire none :: rest.1, rest.2)
      else
        let referred := encoder.refer path
        let rest := encodeOps referred.encoder (some (pathKey path)) ops
        (referred.definition ++ wire (some referred.ref) :: rest.1, rest.2)

def Encoder.encode (encoder : Encoder) (ops : List (Op JsonValue)) : List JsonValue × Encoder :=
  let (out, encoder) := encodeOps encoder none ops
  (out.map WireOp.tuple, encoder)

/-! ## The decoder -/

/-- The dictionary, the newest definition first. -/
abbrev Decoder := List (Nat × Path)

def Decoder.path? (paths : Decoder) (id : Nat) : Option Path :=
  (paths.find? (·.1 = id)).map Prod.snd

def Decoder.resolve (paths : Decoder) : PathRef → Result Path
  | .inline path => .ok path
  | .id id =>
    match paths.path? id with
    | some path => .ok path
    | none => .error (.pathId id)

def Decoder.pathOf (paths : Decoder) (previous : Option Path) : Option PathRef → Result Path
  | none =>
    match previous with
    | some path => .ok path
    | none => .error (.path [])
  | some ref => paths.resolve ref

def nonRoot (path : Path) (op : Op JsonValue) : Result (Op JsonValue) :=
  if path = [] then .error (.path path) else .ok op

def WireOp.op (path : Path) : WireOp → Result (Op JsonValue)
  | .r value => .ok (.r value)
  | .s _ value => nonRoot path (.s path value)
  | .d _ => nonRoot path (.d path)
  | .a _ text => nonRoot path (.a path text)
  | .t _ count => nonRoot path (.t path count)
  | .p _ index remove items => .ok (.p path index remove items)
  | .m _ permutation => .ok (.m path permutation)
  | .define _ _ => .error (.path path)

def WireOp.ref : WireOp → Option PathRef
  | .s ref _ => ref
  | .d ref => ref
  | .a ref _ => ref
  | .t ref _ => ref
  | .p ref _ _ _ => ref
  | .m ref _ => ref
  | _ => none

/-- The loop of `decode`. -/
@[grind =] def decodeOps (paths : Decoder) (previous : Option Path) :
    List JsonValue → Result (List (Op JsonValue) × Decoder)
  | [] => .ok ([], paths)
  | tuple :: wire => do
    let op ← assertValidWireOp tuple
    match op with
    | .define id path => do
      assertSafePath path
      decodeOps ((id, path) :: paths) previous wire
    | .r value => do
      let rest ← decodeOps [] none wire
      .ok (.r value :: rest.1, rest.2)
    | op => do
      let path ← paths.pathOf previous op.ref
      let decoded ← op.op path
      let rest ← decodeOps paths (some path) wire
      .ok (decoded :: rest.1, rest.2)

def Decoder.decode (paths : Decoder) (wire : List JsonValue) :
    Result (List (Op JsonValue) × Decoder) :=
  decodeOps paths none wire

/-! ## Keys -/

def afterSeg : Path → Text
  | [] => [93]
  | seg :: path => 44 :: segTexts (seg :: path)

theorem segTexts_cons (seg : Seg) (path : Path) :
    segTexts (seg :: path) = segText seg ++ afterSeg path := by
  cases path <;> rfl

theorem afterSeg_numberEnd (path : Path) : Json.NumberEnd ((afterSeg path).map character) := by
  cases path with
  | nil =>
    intro c hc
    cases hc
    decide
  | cons seg path =>
    intro c hc
    cases hc
    decide

theorem quote_ne_decimalText {s rest : Text} {n : Nat} {path : Path} :
    quote s ++ rest ≠ decimalText (.ofNat n) ++ afterSeg path := by
  intro h
  have hparse := Json.parseNumber_text (.ofNat n) (afterSeg_numberEnd path)
  rw [← map_character_decimalText, ← h, quote, List.cons_append, List.map_cons] at hparse
  have hnone : ∀ cs, Json.parseNumber (character 34 :: cs) = none := by
    intro cs
    have hspan : (character 34 :: cs).span Char.isDigit = ([], character 34 :: cs) := by
      rw [List.span_eq_takeWhile_dropWhile]
      rfl
    show Json.parseMagnitude false (character 34 :: cs) = none
    unfold Json.parseMagnitude
    rw [hspan]
    rfl
  rw [hnone] at hparse
  cases hparse

variable {seg : Seg}

theorem segText_append_inj {seg' : Seg} {path path' : Path}
    (h : segText seg ++ afterSeg path = segText seg' ++ afterSeg path') :
    seg = seg' ∧ afterSeg path = afterSeg path' := by
  cases seg with
  | key name =>
    cases seg' with
    | key name' =>
      obtain ⟨rfl, hrest⟩ := quoteBody_append_inj (List.cons.inj h).2
      exact ⟨rfl, hrest⟩
    | index n' => exact absurd h quote_ne_decimalText
  | index n =>
    cases seg' with
    | key name' => exact absurd h.symm quote_ne_decimalText
    | index n' =>
      obtain ⟨hn, hrest⟩ :=
        decimalText_append_inj h (afterSeg_numberEnd path) (afterSeg_numberEnd path')
      have hnat := congrArg Json.Decimal.toNat? hn
      rw [Json.Decimal.toNat?_ofNat, Json.Decimal.toNat?_ofNat] at hnat
      exact ⟨congrArg Seg.index (Option.some.inj hnat), hrest⟩

theorem afterSeg_inj {path path' : Path} (h : afterSeg path = afterSeg path') : path = path' := by
  induction path generalizing path' with
  | nil =>
    cases path' with
    | nil => rfl
    | cons seg' path' => exact absurd (List.cons.inj h).1 (by decide)
  | cons seg path ih =>
    cases path' with
    | nil => exact absurd (List.cons.inj h).1 (by decide)
    | cons seg' path' =>
      have htexts := (List.cons.inj h).2
      rw [segTexts_cons, segTexts_cons] at htexts
      obtain ⟨rfl, hrest⟩ := segText_append_inj htexts
      rw [ih hrest]

theorem segText_ne_bracket {path : Path} : segText seg ++ afterSeg path ≠ [93] := by
  intro h
  cases seg with
  | key name => exact absurd (List.cons.inj h).1 (by decide)
  | index n =>
    have hparse := Json.parseNumber_text (.ofNat n) (afterSeg_numberEnd path)
    rw [← map_character_decimalText, show decimalText _ ++ _ = [93] from h] at hparse
    have hnone : Json.parseNumber ([93].map character) = none := by
      decide
    rw [hnone] at hparse
    cases hparse

/-- **Different paths have different keys.** -/
theorem pathKey_inj {path path' : Path} (h : pathKey path = pathKey path') : path = path' := by
  have htexts : segTexts path = segTexts path' := (List.cons.inj h).2
  cases path with
  | nil =>
    cases path' with
    | nil => rfl
    | cons seg' path' =>
      rw [segTexts_cons] at htexts
      exact absurd htexts.symm segText_ne_bracket
  | cons seg path =>
    cases path' with
    | nil =>
      rw [segTexts_cons] at htexts
      exact absurd htexts segText_ne_bracket
    | cons seg' path' => exact afterSeg_inj (congrArg (44 :: ·) htexts)

/-! ## What was written is read -/

def PathRef.Safe : PathRef → Prop
  | .inline path => SafePath path
  | .id _ => True

def WireOp.Valid : WireOp → Prop
  | .r _ => True
  | .define _ path => SafePath path
  | .m ref permutation => (∀ r, ref = some r → r.Safe) ∧ assertPermutation permutation = .ok ()
  | op => ∀ r, op.ref = some r → r.Safe

@[simp] theorem natField_nat (n : Nat) (message : String) : natField (.nat n) message = .ok n := by
  simp [natField, Value.nat]

theorem safeSeg_toJson (h : ∀ name, seg = .key name → name ∉ reservedSegments) :
    safeSeg seg.toJson = .ok seg := by
  cases seg with
  | key name => simp [safeSeg, Seg.toJson, h name rfl]
  | index n => simp [safeSeg, Seg.toJson, Value.nat]

theorem mapM_safeSeg {path : Path} (h : SafePath path) :
    (path.map Seg.toJson).mapM safeSeg = .ok path := by
  apply Except.mapM_map
  intro seg hseg
  exact safeSeg_toJson fun name hname => h name (hname ▸ hseg)

theorem okRef_toJson {ref : PathRef} (h : ref.Safe) : okRef ref.toJson = .ok ref := by
  cases ref with
  | inline path =>
    show (List.mapM safeSeg (path.map Seg.toJson)).map PathRef.inline = _
    rw [mapM_safeSeg h]
    rfl
  | id n => simp [okRef, PathRef.toJson, Value.nat]

theorem okPermutation_map {permutation : List Nat} (h : assertPermutation permutation = .ok ()) :
    okPermutation (.arr () (permutation.map .nat)) = .ok permutation := by
  have hmap : (permutation.map Value.nat).mapM
      (natField · "m permutation is not a bijection") = .ok permutation :=
    Except.mapM_map fun n _ => natField_nat n _
  simp [okPermutation, arrField, hmap, h]

/-- **The reader sees what the encoder wrote.** -/
theorem assertValidWireOp_tuple {op : WireOp} (h : op.Valid) :
    assertValidWireOp op.tuple = .ok op := by
  cases op with
  | r value => rfl
  | s ref value =>
    cases ref with
    | none => rfl
    | some ref =>
      show (okRef ref.toJson).map _ = _
      rw [okRef_toJson (h ref rfl)]
      rfl
  | d ref =>
    cases ref with
    | none => rfl
    | some ref =>
      show (okRef ref.toJson).map _ = _
      rw [okRef_toJson (h ref rfl)]
      rfl
  | a ref text =>
    cases ref with
    | none => rfl
    | some ref =>
      show (okRef ref.toJson >>= _) = _
      rw [okRef_toJson (h ref rfl)]
      rfl
  | t ref count =>
    cases ref with
    | none =>
      show (natField (.nat count) _).map _ = _
      rw [natField_nat]
      rfl
    | some ref =>
      show (okRef ref.toJson >>= _) = _
      rw [okRef_toJson (h ref rfl), Except.ok_bind, natField_nat]
      rfl
  | p ref index remove items =>
    have hsplice : ∀ ref, okSplice ref (.nat index) (.nat remove) (.arr () items)
        = .ok (.p ref index remove items) := by
      intro ref
      simp [okSplice, arrField]
    cases ref with
    | none => exact hsplice none
    | some ref =>
      show (okRef ref.toJson >>= _) = _
      rw [okRef_toJson (h ref rfl), Except.ok_bind]
      exact hsplice (some ref)
  | m ref permutation =>
    obtain ⟨href, hpermutation⟩ := h
    cases ref with
    | none =>
      show (okPermutation (.arr () (permutation.map .nat))).map _ = _
      rw [okPermutation_map hpermutation]
      rfl
    | some ref =>
      show (okRef ref.toJson >>= _) = _
      rw [okRef_toJson (href ref rfl), Except.ok_bind, okPermutation_map hpermutation]
      rfl
  | define id path =>
    show (natField (.nat id) _ >>= _) = _
    rw [natField_nat, Except.ok_bind, mapM_safeSeg h]
    rfl

/-! ## Both sides in step -/

/-- The decoder knows every path that has an id, and no id beyond those given out. -/
structure InStep (encoder : Encoder) (paths : Decoder) : Prop where
  known : ∀ key id, (key, id) ∈ encoder.ids →
    id < encoder.nextId ∧ ∃ path, pathKey path = key ∧ paths.path? id = some path

def SamePrevious (previous : Option Text) (previousPath : Option Path) : Prop :=
  ∀ key, previous = some key → ∃ path, previousPath = some path ∧ pathKey path = key

theorem InStep.init (paths : Decoder) : InStep .init paths :=
  ⟨nofun⟩

structure Routed (op : Op JsonValue) (path : Path) (wire : Option PathRef → WireOp) : Prop where
  safe : SafePath path
  ref : ∀ ref, (wire ref).ref = ref
  op : ∀ ref, (wire ref).op path = .ok op
  valid : ∀ ref, (∀ r, ref = some r → r.Safe) → (wire ref).Valid
  plain : ∀ ref, (∀ value, wire ref ≠ .r value) ∧ ∀ id path, wire ref ≠ .define id path

theorem nonRoot_of_ne {path : Path} (h : path ≠ []) (op : Op JsonValue) :
    nonRoot path op = .ok op := if_neg h

theorem routed {op : Op JsonValue} {path : Path} {wire : Option PathRef → WireOp}
    (hvalid : assertValidOp op = .ok ()) (hroute : op.route = .inr (path, wire)) :
    Routed op path wire := by
  cases op with
  | r value => cases hroute
  | s path value =>
    cases hroute
    obtain ⟨hne, hsafe⟩ := assertPathArg_ok.mp hvalid
    exact ⟨hsafe, fun _ => rfl, fun _ => nonRoot_of_ne (hne rfl) _, fun _ h => h, by simp⟩
  | d path =>
    cases hroute
    obtain ⟨hne, hsafe⟩ := assertPathArg_ok.mp hvalid
    exact ⟨hsafe, fun _ => rfl, fun _ => nonRoot_of_ne (hne rfl) _, fun _ h => h, by simp⟩
  | a path text =>
    cases hroute
    obtain ⟨hne, hsafe⟩ := assertPathArg_ok.mp hvalid
    exact ⟨hsafe, fun _ => rfl, fun _ => nonRoot_of_ne (hne rfl) _, fun _ h => h, by simp⟩
  | t path count =>
    cases hroute
    obtain ⟨hne, hsafe⟩ := assertPathArg_ok.mp hvalid
    exact ⟨hsafe, fun _ => rfl, fun _ => nonRoot_of_ne (hne rfl) _, fun _ h => h, by simp⟩
  | p path index remove items =>
    cases hroute
    obtain ⟨-, hsafe⟩ := assertPathArg_ok.mp hvalid
    exact ⟨hsafe, fun _ => rfl, fun _ => rfl, fun _ h => h, by simp⟩
  | m path permutation =>
    cases hroute
    obtain ⟨_, hpath, hpermutation⟩ := Except.bind_eq_ok.mp hvalid
    obtain ⟨-, hsafe⟩ := assertPathArg_ok.mp hpath
    exact ⟨hsafe, fun _ => rfl, fun _ => rfl, fun _ h => ⟨h, hpermutation⟩, by simp⟩

def Decoded.cons (ops : List (Op JsonValue)) (rest : Result (List (Op JsonValue) × Decoder)) :
    Result (List (Op JsonValue) × Decoder) :=
  rest.map fun rest => (ops ++ rest.1, rest.2)

theorem Decoded.cons_cons (ops ops' : List (Op JsonValue))
    (rest : Result (List (Op JsonValue) × Decoder)) :
    Decoded.cons ops (Decoded.cons ops' rest) = Decoded.cons (ops ++ ops') rest := by
  cases rest with
  | error e => rfl
  | ok rest => simp [Decoded.cons, Except.map]

theorem decodeOps_r (paths : Decoder) (previous : Option Path) (value : JsonValue)
    (wire : List JsonValue) :
    decodeOps paths previous ((WireOp.r value).tuple :: wire)
      = Decoded.cons [.r value] (decodeOps [] none wire) := by
  show (decodeOps [] none wire >>= _) = _
  cases decodeOps [] none wire <;> rfl

theorem decodeOps_define (paths : Decoder) (previous : Option Path) {id : Nat} {path : Path}
    (hsafe : SafePath path) (wire : List JsonValue) :
    decodeOps paths previous ((WireOp.define id path).tuple :: wire)
      = decodeOps ((id, path) :: paths) previous wire := by
  rw [decodeOps, assertValidWireOp_tuple (show (WireOp.define id path).Valid from hsafe),
    Except.ok_bind]
  show (assertSafePath path >>= _) = _
  rw [assertSafePath_ok.mpr hsafe, Except.ok_bind]

theorem decodeOps_routed {paths : Decoder} {previous : Option Path} {op : Op JsonValue}
    {path : Path} {toWire : Option PathRef → WireOp} (h : Routed op path toWire)
    {ref : Option PathRef} (hsafe : ∀ r, ref = some r → r.Safe)
    (hpath : paths.pathOf previous ref = .ok path) (wire : List JsonValue) :
    decodeOps paths previous ((toWire ref).tuple :: wire)
      = Decoded.cons [op] (decodeOps paths (some path) wire) := by
  rw [decodeOps, assertValidWireOp_tuple (h.valid ref hsafe), Except.ok_bind]
  have href := h.ref ref
  have hop := h.op ref
  obtain ⟨hr, hdefine⟩ := h.plain ref
  split
  · next id path' heq => exact absurd heq (hdefine id path')
  · next value heq => exact absurd heq (hr value)
  · rw [href, hpath, Except.ok_bind, hop, Except.ok_bind]
    cases decodeOps paths (some path) wire <;> rfl

theorem Decoder.path?_cons (paths : Decoder) (id id' : Nat) (path : Path) :
    Decoder.path? ((id, path) :: paths) id' = if id = id' then some path else paths.path? id' := by
  unfold Decoder.path?
  rw [List.find?_cons]
  by_cases h : id = id' <;> simp [h]

theorem InStep.define {encoder : Encoder} {paths : Decoder} (h : InStep encoder paths)
    (path : Path) :
    InStep { encoder with
        ids := encoder.ids ++ [(pathKey path, encoder.nextId)]
        nextId := encoder.nextId + 1 } ((encoder.nextId, path) :: paths) := by
  constructor
  intro key id hid
  rw [Decoder.path?_cons]
  rcases List.mem_append.mp hid with hid | hid
  · obtain ⟨hlt, hknown⟩ := h.known key id hid
    rw [if_neg (by omega)]
    exact ⟨Nat.lt_succ_of_lt hlt, hknown⟩
  · cases List.mem_singleton.mp hid
    rw [if_pos rfl]
    exact ⟨Nat.lt_succ_self _, path, rfl, rfl⟩

theorem InStep.known? {encoder : Encoder} {paths : Decoder} (h : InStep encoder paths)
    {path : Path} {id : Nat} (hid : encoder.id? (pathKey path) = some id) :
    paths.path? id = some path := by
  obtain ⟨entry, hfind, rfl⟩ := Option.map_eq_some_iff.mp hid
  have hkey : entry.1 = pathKey path := by
    simpa using List.find?_some hfind
  obtain ⟨-, path', hpath', hknown⟩ := h.known entry.1 entry.2 (List.mem_of_find?_eq_some hfind)
  rw [← pathKey_inj (hpath'.trans hkey)]
  exact hknown

theorem decodeOps_refer {encoder : Encoder} {paths : Decoder} (hstep : InStep encoder paths)
    {path : Path} (hsafe : SafePath path) :
    ∃ paths', InStep (encoder.refer path).encoder paths' ∧ (encoder.refer path).ref.Safe
      ∧ paths'.resolve (encoder.refer path).ref = .ok path
      ∧ ∀ previous wire,
        decodeOps paths previous ((encoder.refer path).definition.map WireOp.tuple ++ wire)
          = decodeOps paths' previous wire := by
  unfold Encoder.refer
  split
  · next id hid =>
    refine ⟨paths, hstep, trivial, ?_, fun _ _ => rfl⟩
    simp only [Decoder.resolve, hstep.known? hid]
  · split
    · refine ⟨(encoder.nextId, path) :: paths, hstep.define path, trivial, ?_, fun previous wire => ?_⟩
      · simp only [Decoder.resolve, Decoder.path?_cons, if_pos]
      · exact decodeOps_define paths previous hsafe wire
    · exact ⟨paths, ⟨hstep.known⟩, hsafe, rfl, fun _ _ => rfl⟩

/-- **A batch is decoded to its operations**, and the dictionaries still agree behind it. -/
theorem decodeOps_encodeOps {ops : List (Op JsonValue)}
    (hvalid : ∀ op ∈ ops, assertValidOp op = .ok ()) {encoder : Encoder} {paths : Decoder}
    {previous : Option Text} {previousPath : Option Path} (hstep : InStep encoder paths)
    (hprevious : SamePrevious previous previousPath) (wire : List JsonValue) :
    ∃ paths' previousPath', InStep (encodeOps encoder previous ops).2 paths'
      ∧ decodeOps paths previousPath ((encodeOps encoder previous ops).1.map WireOp.tuple ++ wire)
        = Decoded.cons ops (decodeOps paths' previousPath' wire) := by
  induction ops generalizing encoder paths previous previousPath with
  | nil =>
    refine ⟨paths, previousPath, hstep, ?_⟩
    show decodeOps paths previousPath wire = _
    cases decodeOps paths previousPath wire <;> rfl
  | cons op ops ih =>
    have ih := fun {encoder paths previous previousPath} =>
      @ih (fun op hop => hvalid op (List.mem_cons_of_mem _ hop)) encoder paths previous previousPath
    have hop := hvalid op List.mem_cons_self
    rw [encodeOps]
    split
    · next value hroute =>
      -- both dictionaries are emptied
      obtain rfl : op = .r value := by
        cases op <;> cases hroute
        rfl
      have hnone : SamePrevious none none := by
        rintro _ ⟨⟩
      obtain ⟨paths', previousPath', hstep', hdecode⟩ := ih (InStep.init []) hnone
      refine ⟨paths', previousPath', hstep', ?_⟩
      rw [List.map_cons, List.cons_append, decodeOps_r, hdecode, Decoded.cons_cons]
      rfl
    · next path toWire hroute =>
      have hrouted := routed hop hroute
      split
      · next hkey =>
        -- the path of the operation before
        obtain ⟨path', rfl, hpath'⟩ := hprevious _ hkey.symm
        obtain rfl := pathKey_inj hpath'
        obtain ⟨paths', previousPath', hstep', hdecode⟩ := ih hstep hprevious
        refine ⟨paths', previousPath', hstep', ?_⟩
        have hsafe : ∀ r, (none : Option PathRef) = some r → r.Safe := by
          rintro _ ⟨⟩
        rw [List.map_cons, List.cons_append, decodeOps_routed hrouted hsafe rfl, hdecode,
          Decoded.cons_cons]
        rfl
      · next hkey =>
        have hnext : SamePrevious (some (pathKey path)) (some path) := by
          rintro _ ⟨⟩
          exact ⟨path, rfl, rfl⟩
        obtain ⟨paths1, hstep1, hsafe1, hpath1, hdefinition⟩ := decodeOps_refer hstep hrouted.safe
        obtain ⟨paths', previousPath', hstep', hdecode⟩ := ih hstep1 hnext
        refine ⟨paths', previousPath', hstep', ?_⟩
        have hsafe : ∀ r, some (encoder.refer path).ref = some r → r.Safe := by
          rintro _ ⟨⟩
          exact hsafe1
        have hpath : paths1.pathOf previousPath (some (encoder.refer path).ref) = .ok path := hpath1
        rw [List.map_append, List.append_assoc, hdefinition, List.map_cons, List.cons_append,
          decodeOps_routed hrouted hsafe hpath, hdecode, Decoded.cons_cons]
        rfl

/-! ## Streams -/

@[grind =] def encodeJoined (encoder : Encoder) : List (List (Op JsonValue)) → List JsonValue × Encoder
  | [] => ([], encoder)
  | batch :: batches =>
    let first := encoder.encode batch
    let rest := encodeJoined first.2 batches
    (first.1 ++ rest.1, rest.2)

@[grind =] def encodeStream (encoder : Encoder) : List (List (List (Op JsonValue))) → List (List JsonValue)
  | [] => []
  | batches :: stream =>
    let first := encodeJoined encoder batches
    first.1 :: encodeStream first.2 stream

@[grind =] def decodeStream (paths : Decoder) : List (List JsonValue) → Result (List (List (Op JsonValue)))
  | [] => .ok []
  | wire :: stream => do
    let first ← paths.decode wire
    let rest ← decodeStream first.2 stream
    .ok (first.1 :: rest)

def ValidOps (ops : List (Op JsonValue)) : Prop := ∀ op ∈ ops, assertValidOp op = .ok ()

theorem decodeOps_encodeJoined {batches : List (List (Op JsonValue))}
    (hvalid : ValidOps batches.flatten) {encoder : Encoder} {paths : Decoder}
    (hstep : InStep encoder paths) (previousPath : Option Path) :
    ∃ paths', InStep (encodeJoined encoder batches).2 paths'
      ∧ decodeOps paths previousPath (encodeJoined encoder batches).1
        = .ok (batches.flatten, paths') := by
  induction batches generalizing encoder paths previousPath with
  | nil => exact ⟨paths, hstep, rfl⟩
  | cons batch batches ih =>
    have hbatch : ∀ op ∈ batch, assertValidOp op = .ok () :=
      fun op hop => hvalid op (List.mem_append_left _ hop)
    have hbatches : ValidOps batches.flatten :=
      fun op hop => hvalid op (List.mem_append_right _ hop)
    -- a batch begins with a path of its own, whatever was decoded before it
    have hnone : SamePrevious none previousPath := by
      rintro _ ⟨⟩
    obtain ⟨paths1, previousPath1, hstep1, hdecode1⟩ := decodeOps_encodeOps hbatch hstep hnone
      (encodeJoined (encodeOps encoder none batch).2 batches).1
    obtain ⟨paths', hstep', hdecode'⟩ := ih hbatches hstep1 previousPath1
    refine ⟨paths', hstep', ?_⟩
    rw [hdecode'] at hdecode1
    exact hdecode1

theorem decodeOps_replacement {batches : List (List (Op JsonValue))} {value : JsonValue}
    {ops : List (Op JsonValue)} (hvalid : ValidOps batches.flatten)
    (hfirst : batches.flatten = .r value :: ops) (encoder : Encoder) (paths : Decoder) :
    ∃ paths', InStep (encodeJoined encoder batches).2 paths'
      ∧ decodeOps paths none (encodeJoined encoder batches).1 = .ok (batches.flatten, paths') := by
  induction batches generalizing encoder with
  | nil => cases hfirst
  | cons batch batches ih =>
    cases batch with
    | nil => exact ih hvalid hfirst encoder
    | cons op batch =>
      obtain ⟨rfl, -⟩ := List.cons.inj hfirst
      -- from the replacement on both sides start anew
      have hrest : ValidOps (batch :: batches).flatten :=
        fun op hop => hvalid op (List.mem_cons_of_mem _ hop)
      obtain ⟨paths', hstep', hdecode'⟩ := decodeOps_encodeJoined hrest (InStep.init []) none
      refine ⟨paths', hstep', ?_⟩
      have hdecode := decodeOps_r paths none value (encodeJoined .init (batch :: batches)).1
      rw [hdecode'] at hdecode
      exact hdecode

theorem decodeStream_encodeStream {stream : List (List (List (Op JsonValue)))}
    (hvalid : ∀ batches ∈ stream, ValidOps batches.flatten) {encoder : Encoder} {paths : Decoder}
    (hstart : InStep encoder paths
      ∨ ∃ value ops, stream.head?.map List.flatten = some (.r value :: ops)) :
    decodeStream paths (encodeStream encoder stream) = .ok (stream.map List.flatten) := by
  induction stream generalizing encoder paths with
  | nil => rfl
  | cons batches stream ih =>
    have hbatches := hvalid batches List.mem_cons_self
    have hdecode : ∃ paths', InStep (encodeJoined encoder batches).2 paths'
        ∧ paths.decode (encodeJoined encoder batches).1 = .ok (batches.flatten, paths') := by
      rcases hstart with hstep | ⟨value, ops, hfirst⟩
      · exact decodeOps_encodeJoined hbatches hstep none
      · exact decodeOps_replacement hbatches (Option.some.inj hfirst) encoder paths
    obtain ⟨paths', hstep', hdecode⟩ := hdecode
    have hrest := ih (fun batches hmem => hvalid batches (List.mem_cons_of_mem _ hmem)) (.inl hstep')
    rw [encodeStream, decodeStream, hdecode, Except.ok_bind, hrest]
    rfl

theorem drop_encodeStream (encoder : Encoder) (stream : List (List (List (Op JsonValue))))
    (k : Nat) : ∃ encoder', (encodeStream encoder stream).drop k
      = encodeStream encoder' (stream.drop k) := by
  induction k generalizing encoder stream with
  | zero => exact ⟨encoder, rfl⟩
  | succ k ih =>
    cases stream with
    | nil => exact ⟨encoder, rfl⟩
    | cons batches stream => exact ih (encodeJoined encoder batches).2 stream

/-- **The wire carries the operations exactly.** However the encoded batches are joined on the
way, a decoder that reads from the beginning, or from any wire batch that begins with a
replacement, returns the operations of every batch. -/
theorem decoding_returns_the_ops (stream : List (List (List (Op JsonValue))))
    (hvalid : ∀ batches ∈ stream, ∀ batch ∈ batches, ∀ op ∈ batch, assertValidOp op = .ok ()) :
    decodeStream [] (encodeStream .init stream) = .ok (stream.map List.flatten)
      ∧ ∀ k value ops, (stream.drop k).head?.map List.flatten = some (.r value :: ops) →
        decodeStream [] ((encodeStream .init stream).drop k)
          = .ok ((stream.drop k).map List.flatten) := by
  have hvalid : ∀ batches ∈ stream, ValidOps batches.flatten := by
    intro batches hbatches op hop
    obtain ⟨batch, hbatch, hop⟩ := List.mem_flatten.mp hop
    exact hvalid batches hbatches batch hbatch op hop
  constructor
  · exact decodeStream_encodeStream hvalid (.inl (InStep.init []))
  · intro k value ops hfirst
    obtain ⟨encoder', hdrop⟩ := drop_encodeStream .init stream k
    rw [hdrop]
    refine decodeStream_encodeStream ?_ (.inr ⟨value, ops, hfirst⟩)
    exact fun batches hmem => hvalid batches (List.mem_of_mem_drop hmem)

/-- Three writes of one path in two batches that are joined, then a replacement and a fourth. -/
def sampleStream : List (List (List (Op JsonValue))) :=
  [[[.s [.key (units "a")] (.nat 1), .s [.key (units "a")] (.nat 2)], [.s [.key (units "a")] (.nat 3)]],
    [[.r .null, .s [.key (units "a")] (.nat 4)]]]

theorem decoding_returns_the_ops_recovered :
    decodeStream [] ((encodeStream .init sampleStream).drop 1)
      = .ok [[.r .null, .s [.key (units "a")] (.nat 4)]] := by
  refine (decoding_returns_the_ops sampleStream ?_).2 1 .null _ rfl
  intro batches hbatches batch hbatch op hop
  have hop : op ∈ sampleStream.flatten.flatten :=
    List.mem_flatten.mpr ⟨batch, List.mem_flatten.mpr ⟨batches, hbatches, hbatch⟩, hop⟩
  simp only [sampleStream, List.flatten, List.append, List.mem_cons, List.not_mem_nil, or_false]
    at hop
  rcases hop with rfl | rfl | rfl | rfl | rfl
  · rfl
  · rfl
  · rfl
  · rfl
  · rfl

end ThreeXhaust.Delta
