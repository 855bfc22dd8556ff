import ThreeXhaust.Delta.Data

/-!
# Writes of leaves

A write at a path changes what the path leads to and nothing beside it. Writes of leaves, which are
no containers, at two paths commute, as long as neither path leads through the other; and once an
ancestor of a path is a leaf, no write reaches the path until a container is put there again.
-/

namespace ThreeXhaust.Delta

open Utf16

namespace Data

def isLeaf : Data → Bool
  | .arr _ => false
  | .obj _ => false
  | _ => true

/-- Write at a path; `f` is told what is there. -/
def write (f : Option Data → Option Data) : Path → Option Data → Option Data
  | [], old => f old
  | seg :: path, old => do
    let x ← old
    let c ← write f path (x.child seg)
    x.put seg c

section Put

variable {x x' c d e : Data} {seg other : Seg}

theorem child_put (h : x.put seg d = some x') : x'.child seg = some d := by
  cases x with
  | arr items =>
    cases seg with
    | key name => cases h
    | index i =>
      simp only [put] at h
      split at h
      · next hi =>
        cases h
        simp [child, hi]
      · split at h
        · next hi =>
          cases h
          simp [child, hi]
        · cases h
  | obj field =>
    cases h
    simp [child]
  | _ => cases h

theorem put_put (h : x.put seg d = some x') : x'.put seg e = x.put seg e := by
  cases x with
  | arr items =>
    cases seg with
    | key name => cases h
    | index i =>
      simp only [put] at h
      split at h
      · next hi =>
        cases h
        simp [put, hi]
      · next hge =>
        split at h
        · next hi =>
          cases h
          subst hi
          simp [put]
        · cases h
  | obj field =>
    cases h
    simp [put]
  | _ => cases h

theorem exists_put (h : x.child seg = some c) (d : Data) : ∃ x', x.put seg d = some x' := by
  cases x with
  | arr items =>
    cases seg with
    | key name => cases h
    | index i =>
      have hi := (List.getElem?_eq_some_iff.mp h).1
      exact ⟨_, if_pos hi⟩
  | obj field => exact ⟨_, rfl⟩
  | _ => cases h

theorem put_leaf (h : x.isLeaf = true) : x.put seg d = none := by
  cases x with
  | arr items => cases h
  | obj field => cases h
  | _ => rfl

theorem Fits.put (h : x.Fits other) (hput : x.put seg d = some x') : x'.Fits other := by
  cases x with
  | arr items =>
    cases seg with
    | key name => cases hput
    | index i =>
      simp only [Data.put] at hput
      split at hput
      · cases hput
        cases other <;> exact h
      · split at hput
        · cases hput
          cases other <;> exact h
        · cases hput
  | obj field =>
    cases hput
    cases other <;> exact h
  | _ => cases h

theorem put_beside (hne : seg ≠ other) (hseg : x.Fits seg) (hother : x.Fits other)
    (hchild : x.child seg = some c) (hput : x.put other d = some x') :
    x'.child seg = some c ∧ ∀ e, ∃ z z', x.put seg e = some z ∧ z.put other d = some z'
      ∧ x'.put seg e = some z' ∧ z.child other = x.child other := by
  cases x with
  | arr items =>
    cases seg with
    | key name => cases hseg
    | index i =>
      cases other with
      | key name => cases hother
      | index j =>
        have hij : i ≠ j := fun h => hne (congrArg Seg.index h)
        have hi : i < items.length := (List.getElem?_eq_some_iff.mp hchild).1
        have hchild : items[i]? = some c := hchild
        simp only [put] at hput
        split at hput
        · next hj =>
          cases hput
          refine ⟨?_, fun e => ⟨.arr (items.set i e), .arr ((items.set i e).set j d), ?_, ?_, ?_, ?_⟩⟩
          · show (items.set j d)[i]? = some c
            rw [List.getElem?_set_ne (Ne.symm hij), hchild]
          · simp [put, hi]
          · simp [put, hj]
          · simp only [put, List.length_set, if_pos hi]
            rw [List.set_comm _ _ (Ne.symm hij)]
          · show (items.set i e)[j]? = items[j]?
            rw [List.getElem?_set_ne hij]
        · split at hput
          · next hj =>
            -- the other element is the one behind the last
            cases hput
            subst hj
            refine ⟨?_, fun e => ⟨.arr (items.set i e), .arr (items.set i e ++ [d]), ?_, ?_, ?_, ?_⟩⟩
            · show (items ++ [d])[i]? = some c
              rw [List.getElem?_append_left hi, hchild]
            · simp [put, hi]
            · simp [put]
            · have hlt : i < items.length + 1 := by omega
              simp [put, hlt, hi]
            · show (items.set i e)[items.length]? = items[items.length]?
              rw [List.getElem?_set_ne hij]
          · cases hput
  | obj field =>
    cases seg with
    | index i => cases hseg
    | key name =>
      cases other with
      | index j => cases hother
      | key name' =>
        have hne : name ≠ name' := fun h => hne (congrArg Seg.key h)
        cases hput
        refine ⟨?_, fun e => ⟨_, _, rfl, rfl, ?_, ?_⟩⟩
        · show Function.update field name' (some d) name = some c
          rw [Function.update_of_ne hne]
          exact hchild
        · simp only [put, Seg.name]
          rw [Function.update_comm hne.symm]
        · show Function.update field name (some e) name' = field name'
          rw [Function.update_of_ne hne.symm]
  | _ => cases hseg

end Put

/-! ## Writes at a path -/

section Write

variable {f : Option Data → Option Data} {path : Path} {seg : Seg} {x x' d v : Data}

theorem write_cons :
    write f (seg :: path) (some x) = (write f path (x.child seg)).bind (x.put seg) := rfl

theorem at_write (h : write f path (some x) = some x') :
    ∃ d, f (Data.at path x) = some d ∧ Data.at path x' = some d := by
  induction path generalizing x x' with
  | nil => exact ⟨x', h, rfl⟩
  | cons seg path ih =>
    rw [write_cons] at h
    obtain ⟨c, hc, hput⟩ := Option.bind_eq_some_iff.mp h
    have hchild := child_put hput
    cases hold : x.child seg with
    | none =>
      -- only the last segment may be new
      rw [hold] at hc
      cases path with
      | nil =>
        refine ⟨c, ?_, ?_⟩
        · rw [Data.at, hold]
          exact hc
        · rw [Data.at, hchild]
          rfl
      | cons seg' path => cases hc
    | some old =>
      rw [hold] at hc
      obtain ⟨d, hd, hat⟩ := ih hc
      refine ⟨d, ?_, ?_⟩
      · rw [Data.at, hold]
        exact hd
      · rw [Data.at, hchild]
        exact hat

theorem write_eq_const {w : Data} (h : f (Data.at path x) = some w) :
    write f path (some x) = write (fun _ => some w) path (some x) := by
  induction path generalizing x with
  | nil => exact h
  | cons seg path ih =>
    rw [write_cons, write_cons]
    cases hold : x.child seg with
    | none =>
      rw [Data.at, hold] at h
      cases path with
      | nil => rw [write, write, show f none = some w from h]
      | cons seg' path => rfl
    | some c =>
      rw [Data.at, hold] at h
      rw [ih h]

theorem exists_write (h : Data.at path x = some d) (v : Data) :
    ∃ x', write (fun _ => some v) path (some x) = some x' := by
  induction path generalizing x with
  | nil => exact ⟨v, rfl⟩
  | cons seg path ih =>
    obtain ⟨c, hc, hat⟩ := Option.bind_eq_some_iff.mp h
    obtain ⟨c', hc'⟩ := ih hat
    obtain ⟨x', hx'⟩ := exists_put hc c'
    refine ⟨x', ?_⟩
    rw [write_cons, hc, hc']
    exact hx'

theorem write_write (h : write f path (some x) = some x') :
    write (fun _ => some v) path (some x') = write (fun _ => some v) path (some x) := by
  induction path generalizing x x' with
  | nil => rfl
  | cons seg path ih =>
    rw [write_cons] at h
    obtain ⟨c, hc, hput⟩ := Option.bind_eq_some_iff.mp h
    rw [write_cons, write_cons, child_put hput]
    have hput' : ∀ e, x'.put seg e = x.put seg e := fun e => put_put hput
    have hsame : write (fun _ => some v) path (some c)
        = write (fun _ => some v) path (x.child seg) := by
      cases hold : x.child seg with
      | none =>
        rw [hold] at hc
        cases path with
        | nil => rfl
        | cons seg' path => cases hc
      | some old =>
        rw [hold] at hc
        exact ih hc
    rw [hsame]
    cases write (fun _ => some v) path (x.child seg) with
    | none => rfl
    | some e => exact hput' e

theorem Typed.write (htyped : x.Typed path) (h : Data.write f path (some x) = some x') :
    x'.Typed path := by
  induction path generalizing x x' with
  | nil => trivial
  | cons seg path ih =>
    rw [write_cons] at h
    obtain ⟨c, hc, hput⟩ := Option.bind_eq_some_iff.mp h
    obtain ⟨hfits, hrest⟩ := htyped
    refine ⟨hfits.put hput, fun c' hc' => ?_⟩
    rw [child_put hput] at hc'
    cases hc'
    cases hold : x.child seg with
    | none =>
      rw [hold] at hc
      cases path with
      | nil => trivial
      | cons seg' path => cases hc
    | some old =>
      rw [hold] at hc
      exact ih (hrest old hold) hc

theorem write_below {rest : Path} (hat : Data.at path x = some v) (hleaf : v.isLeaf = true) :
    write f (path ++ seg :: rest) (some x) = none := by
  induction path generalizing x with
  | nil =>
    cases hat
    rw [List.nil_append, write_cons]
    cases write f rest (v.child seg) with
    | none => rfl
    | some c => exact put_leaf hleaf
  | cons seg' path ih =>
    obtain ⟨c, hc, hrest⟩ := Option.bind_eq_some_iff.mp hat
    rw [List.cons_append, write_cons, hc, ih hrest]
    rfl

/-- **A write beside a leaf** leaves it alone, and is the same whatever the leaf is. -/
theorem write_comm {leaf : Path} {p : Data} (hat : Data.at leaf x = some p)
    (hleaf : p.isLeaf = true) (htleaf : x.Typed leaf) (htpath : x.Typed path)
    (hbeside : ¬ path <+: leaf) (h : write f path (some x) = some x') :
    Data.at leaf x' = some p ∧ x'.Typed leaf ∧
      ∀ v, ∃ z z', write (fun _ => some v) leaf (some x) = some z ∧ z.Typed path
        ∧ write f path (some z) = some z' ∧ write (fun _ => some v) leaf (some x') = some z' := by
  induction leaf generalizing path x x' with
  | nil =>
    -- the value itself is a leaf
    cases hat
    cases path with
    | nil => exact absurd List.prefix_rfl hbeside
    | cons seg path =>
      rw [← List.nil_append (seg :: path), write_below rfl hleaf] at h
      cases h
  | cons seg leaf ih =>
    cases path with
    | nil => exact absurd List.nil_prefix hbeside
    | cons other path =>
      obtain ⟨c, hc, hrest⟩ := Option.bind_eq_some_iff.mp hat
      rw [write_cons] at h
      obtain ⟨d, hd, hput⟩ := Option.bind_eq_some_iff.mp h
      obtain ⟨hfits, htc⟩ := htleaf
      obtain ⟨hfits', htc'⟩ := htpath
      by_cases hsame : seg = other
      · -- both lead through one child
        subst hsame
        rw [hc] at hd
        have hbeside' : ¬ path <+: leaf := fun hprefix => hbeside (List.cons_prefix_cons.mpr ⟨rfl, hprefix⟩)
        obtain ⟨hatd, htd, hcomm⟩ := ih hrest (htc c hc) (htc' c hc) hbeside' hd
        have hchild := child_put hput
        refine ⟨?_, ⟨hfits.put hput, ?_⟩, ?_⟩
        · rw [Data.at, hchild]
          exact hatd
        · intro c' hc'
          rw [hchild] at hc'
          exact Option.some.inj hc' ▸ htd
        · intro v
          obtain ⟨z, z', hz, htz, hz', hlast⟩ := hcomm v
          obtain ⟨y, hy⟩ := exists_put hc z
          obtain ⟨y', hy'⟩ := exists_put hc z'
          refine ⟨y, y', ?_, ⟨hfits'.put hy, ?_⟩, ?_, ?_⟩
          · rw [write_cons, hc, hz]
            exact hy
          · intro c' hc'
            rw [child_put hy] at hc'
            exact Option.some.inj hc' ▸ htz
          · rw [write_cons, child_put hy, hz', Option.bind_some, put_put hy]
            exact hy'
          · rw [write_cons, hchild, hlast, Option.bind_some, put_put hput]
            exact hy'
      · -- the paths part here
        obtain ⟨hkept, hboth⟩ := put_beside hsame hfits hfits' hc hput
        refine ⟨?_, ⟨hfits.put hput, ?_⟩, ?_⟩
        · rw [Data.at, hkept]
          exact hrest
        · intro c' hc'
          rw [hkept] at hc'
          exact Option.some.inj hc' ▸ htc c hc
        · intro v
          obtain ⟨c', hc'⟩ := exists_write hrest v
          obtain ⟨z, z', hz, hz', hlast, hother⟩ := hboth c'
          refine ⟨z, z', ?_, ⟨hfits'.put hz, ?_⟩, ?_, ?_⟩
          · rw [write_cons, hc, hc']
            exact hz
          · intro b hb
            rw [hother] at hb
            exact htc' b hb
          · rw [write_cons, hother, hd]
            exact hz'
          · rw [write_cons, hkept, hc']
            exact hlast

end Write

end Data

/-! ## Leaf operations -/

def leafValue : Op Data → Option Data → Option Data
  | .s _ value, _ => some value
  | .a _ text, some (.str old) => some (.str (old ++ text))
  | _, _ => none

def LeafOn (path : Path) : Op Data → Prop
  | .s other value => other = path ∧ value.isLeaf = true
  | .a other _ => other = path
  | _ => False

theorem LeafOn.path {op : Op Data} {path : Path} (h : LeafOn path op) : op.path = path := by
  cases op with
  | s other value => exact h.1
  | a other text => exact h
  | _ => cases h

theorem alter_eq_write {f : Option Data → Option Data} {edit : Data → Option Data} {seg : Seg}
    (hedit : ∀ x : Data, edit x = (f (x.child seg)).bind (x.put seg)) (path : Path) (x : Data) :
    Data.alter edit path x = Data.write f (path ++ [seg]) (some x) := by
  induction path generalizing x with
  | nil => exact hedit x
  | cons seg' path ih =>
    rw [Data.alter, List.cons_append, Data.write_cons]
    cases x.child seg' with
    | none =>
      cases path with
      | nil => rfl
      | cons seg'' path => rfl
    | some c =>
      rw [← ih c]
      rfl

theorem LeafOn.step {op : Op Data} {path : Path} (h : LeafOn path op)
    (hvalid : assertValidOp op = .ok ()) (x : Data) :
    x.step op = Data.write (leafValue op) path (some x) := by
  rw [Data.step_of_valid hvalid]
  have hsplit : path ≠ [] → ∃ seg, path.getLast? = some seg ∧ path.dropLast ++ [seg] = path :=
    fun hne => ⟨path.getLast hne, List.getLast?_eq_some_getLast hne, List.dropLast_concat_getLast hne⟩
  cases op with
  | s other value =>
    obtain ⟨rfl, -⟩ := h
    obtain ⟨seg, hlast, hpath⟩ := hsplit ((assertPathArg_ok.mp hvalid).1 rfl)
    have hedit : ∀ x, (Op.s other value).edit x
        = (leafValue (.s other value) (x.child seg)).bind (x.put seg) := by
      intro x
      simp only [Op.edit, hlast]
      rfl
    have hwrite := alter_eq_write hedit other.dropLast x
    rw [hpath] at hwrite
    exact hwrite
  | a other text =>
    obtain rfl := h
    obtain ⟨seg, hlast, hpath⟩ := hsplit ((assertPathArg_ok.mp hvalid).1 rfl)
    have hedit : ∀ x, (Op.a other text).edit x
        = (leafValue (.a other text) (x.child seg)).bind (x.put seg) := by
      intro x
      simp only [Op.edit, hlast, Option.bind_some, Data.putText]
      cases x.child seg with
      | none => rfl
      | some c => cases c <;> rfl
    have hwrite := alter_eq_write hedit other.dropLast x
    rw [hpath] at hwrite
    exact hwrite
  | _ => cases h

theorem LeafOn.isLeaf {op : Op Data} {path : Path} (h : LeafOn path op) {old : Option Data}
    {d : Data} (hd : leafValue op old = some d) : d.isLeaf = true := by
  cases op with
  | s other value => exact Option.some.inj hd ▸ h.2
  | a other text =>
    cases old with
    | none => cases hd
    | some x =>
      cases x with
      | str t =>
        cases hd
        rfl
      | _ => cases hd
  | _ => cases h

/-! ## Leaves along a batch -/

def Standing (path : Path) (x : Data) : Prop :=
  ∃ p, Data.at path x = some p ∧ p.isLeaf = true ∧ x.Typed path

def Buried (path : Path) (x : Data) : Prop :=
  ∃ above seg rest, path = above ++ seg :: rest ∧ Standing above x

theorem LeafOn.standing {op : Op Data} {path : Path} (h : LeafOn path op) {x x' : Data}
    (htyped : x.Typed path) (hwrite : Data.write (leafValue op) path (some x) = some x') :
    Standing path x' := by
  obtain ⟨d, hd, hat⟩ := Data.at_write hwrite
  exact ⟨d, hat, h.isLeaf hd, htyped.write hwrite⟩

/-- **A path that is cut off stays so**, whatever leaf is written. -/
theorem Buried.write {op : Op Data} {path other : Path} {x x' : Data} (h : Buried path x)
    (hop : LeafOn other op) (htyped : x.Typed other)
    (hwrite : Data.write (leafValue op) other (some x) = some x') : Buried path x' := by
  obtain ⟨above, seg, rest, rfl, p, hat, hleaf, hta⟩ := h
  by_cases hprefix : other <+: above
  · -- the leaf is replaced, or cut off itself
    obtain ⟨between, rfl⟩ := hprefix
    cases between with
    | nil =>
      refine ⟨other, seg, rest, by simp, hop.standing htyped hwrite⟩
    | cons seg' between =>
      refine ⟨other, seg', between ++ seg :: rest, by simp, hop.standing htyped hwrite⟩
  · obtain ⟨hat', hta', -⟩ := Data.write_comm hat hleaf hta htyped hprefix hwrite
    exact ⟨above, seg, rest, rfl, p, hat', hleaf, hta'⟩

theorem Buried.write_none {f : Option Data → Option Data} {path : Path} {x : Data}
    (h : Buried path x) : Data.write f path (some x) = none := by
  obtain ⟨above, seg, rest, rfl, p, hat, hleaf, -⟩ := h
  exact Data.write_below hat hleaf

def LeavesBeside (path : Path) (ops : List (Op Data)) : Prop :=
  ∀ op ∈ ops, ∃ other, other ≠ path ∧ LeafOn other op

theorem valid_of_step {op : Op Data} {x y : Data} (h : x.step op = some y) :
    assertValidOp op = .ok () := by
  unfold Data.step at h
  split at h
  · next hok => exact hok
  · cases h

theorem Buried.exact {path : Path} {ops : List (Op Data)} {x y : Data} (h : Buried path x)
    (hops : LeavesBeside path ops) (hexact : x.Exact ops y) : Buried path y := by
  induction ops generalizing x with
  | nil =>
    cases hexact
    exact h
  | cons op ops ih =>
    obtain ⟨htyped, z, hstep, hrest⟩ := hexact
    obtain ⟨other, -, hop⟩ := hops op List.mem_cons_self
    rw [hop.path] at htyped
    rw [hop.step (valid_of_step hstep)] at hstep
    exact ih (h.write hop htyped hstep) (fun op hop => hops op (List.mem_cons_of_mem _ hop)) hrest

/-- **Leaf operations on other paths** do the same whatever the leaf is, unless they cut it off. -/
theorem exact_beside {path : Path} {ops : List (Op Data)} {x y p : Data}
    (hat : Data.at path x = some p) (hleaf : p.isLeaf = true) (htx : x.Typed path)
    (hops : LeavesBeside path ops) (hexact : x.Exact ops y) :
    Buried path y ∨ Data.at path y = some p ∧ y.Typed path
      ∧ ∀ v, ∃ z z', Data.write (fun _ => some v) path (some x) = some z ∧ z.Exact ops z'
        ∧ Data.write (fun _ => some v) path (some y) = some z' := by
  induction ops generalizing x with
  | nil =>
    cases hexact
    refine .inr ⟨hat, htx, fun v => ?_⟩
    obtain ⟨z, hz⟩ := Data.exists_write hat v
    exact ⟨z, z, hz, rfl, hz⟩
  | cons op ops ih =>
    obtain ⟨htyped, w, hstep, hrest⟩ := hexact
    obtain ⟨other, hne, hop⟩ := hops op List.mem_cons_self
    have hvalid := valid_of_step hstep
    have hops' : LeavesBeside path ops := fun op hop => hops op (List.mem_cons_of_mem _ hop)
    rw [hop.path] at htyped
    rw [hop.step hvalid] at hstep
    by_cases hprefix : other <+: path
    · -- the operation cuts the leaf off
      obtain ⟨between, rfl⟩ := hprefix
      cases between with
      | nil => exact absurd (List.append_nil other).symm hne
      | cons seg between =>
        have hburied : Buried (other ++ seg :: between) w :=
          ⟨other, seg, between, rfl, hop.standing htyped hstep⟩
        exact .inl (hburied.exact hops' hrest)
    · obtain ⟨hat', htx', hcomm⟩ := Data.write_comm hat hleaf htx htyped hprefix hstep
      rcases ih hat' htx' hops' hrest with hburied | ⟨haty, hty, hlast⟩
      · exact .inl hburied
      · refine .inr ⟨haty, hty, fun v => ?_⟩
        obtain ⟨z, z1, hz, htz, hz1, hw⟩ := hcomm v
        obtain ⟨z1', z', hw', hexact', hy⟩ := hlast v
        rw [hw] at hw'
        cases hw'
        refine ⟨z, z', hz, ⟨hop.path ▸ htz, z1, ?_, hexact'⟩, hy⟩
        rw [hop.step hvalid]
        exact hz1

structure Merges (path : Path) (first second merged : Op Data) : Prop where
  leaf : LeafOn path merged
  valid : assertValidOp merged = .ok ()
  value : ∀ old w w', leafValue first old = some w → leafValue second (some w) = some w' →
    leafValue merged old = some w'

/-- **A leaf operation may be done early**, together with the last one on its path, when only leaf
operations on other paths are between the two. -/
theorem exact_merge {path : Path} {first second merged : Op Data} {between : List (Op Data)}
    {x y z : Data} (hmerges : Merges path first second merged) (hfirst : LeafOn path first)
    (hsecond : LeafOn path second) (hbetween : LeavesBeside path between)
    (hexact : x.Exact (first :: between) y) (hstep : y.step second = some z) :
    x.Exact (merged :: between) z := by
  obtain ⟨htx, x1, hx1, hrest⟩ := hexact
  rw [hfirst.path] at htx
  rw [hfirst.step (valid_of_step hx1)] at hx1
  rw [hsecond.step (valid_of_step hstep)] at hstep
  obtain ⟨w, hw, hat⟩ := Data.at_write hx1
  rcases exact_beside hat (hfirst.isLeaf hw) (htx.write hx1) hbetween hrest with
    hburied | ⟨haty, -, hcomm⟩
  · rw [hburied.write_none] at hstep
    cases hstep
  · obtain ⟨w', hw', -⟩ := Data.at_write hstep
    rw [haty] at hw'
    obtain ⟨x1', z', hx1', hexact', hz'⟩ := hcomm w'
    -- both orders write the last value
    have hlast : Data.write (leafValue second) path (some y) = some z' := by
      rw [Data.write_eq_const (haty ▸ hw'), hz']
    rw [hlast] at hstep
    cases hstep
    refine ⟨hmerges.leaf.path ▸ htx, x1', ?_, hexact'⟩
    rw [hmerges.leaf.step hmerges.valid, Data.write_eq_const (hmerges.value _ w w' hw hw'),
      ← Data.write_write hx1, hx1']

end ThreeXhaust.Delta
