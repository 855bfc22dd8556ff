import ThreeXhaust.CodingAgent.SessionTree
import ThreeXhaust.Lib.Json.Double
import ThreeXhaust.Lib.Json.SortKeys

/-!
# Sessions of version 1

`migrateV1ToV2` gives each entry the first eight characters of a random id, and its parent: the
entry before. The set that `generateId` looks the ids up in stays empty, so that one draw is one id.
A compaction's index becomes an id; an entry that comes later has none yet.

The draws are an argument: one `randomUUID` after the other. An entry is an object, its fields.
-/

namespace ThreeXhaust.CodingAgent

open Json

abbrev Uuid := {s : String // s.toList.length = 36}

abbrev RawEntry := List (String × Value)

/-- The loop of `generateId` with `tries` left, and how many were drawn. -/
def generateIdFrom (has : String → Bool) (draws : Nat → Uuid) (drawn : Nat) : Nat → String × Nat
  | 0 => ((draws drawn).1, drawn + 1)
  | tries + 1 =>
    let id := String.ofList ((draws drawn).1.toList.take 8)
    if has id then generateIdFrom has draws (drawn + 1) tries else (id, drawn + 1)

def generateId (has : String → Bool) (draws : Nat → Uuid) (drawn : Nat) : String × Nat :=
  generateIdFrom has draws drawn 100

def indexOf : Number → Option Nat
  | .finite d =>
    if d.units % one = 0 ∧ (d.negative = false ∨ d.units = 0) then some (d.units / one) else none
  | _ => none

/-- What a compaction's `firstKeptEntryIndex` becomes. -/
def firstKept (entries : List RawEntry) (comp : RawEntry) : RawEntry :=
  if textOf (.obj comp) "type" = some "compaction" then
    match (Value.obj comp).get "firstKeptEntryIndex" with
    | .num index =>
      let comp := match (indexOf index).bind (entries[·]?) with
        | some targetEntry =>
          if isSession (.obj targetEntry) then comp
          else setField comp "firstKeptEntryId" ((Value.obj targetEntry).get "id")
        | none => comp
      Assoc.erase comp "firstKeptEntryIndex"
    | _ => comp
  else comp

/-- The entries after `done`; the array holds these too, as they are. -/
def migrateFrom (draws : Nat → Uuid) (ids : List String) (done : List RawEntry)
    (prevId : Option String) (drawn : Nat) : List RawEntry → List RawEntry
  | [] => done
  | entry :: rest =>
    if isSession (.obj entry) then
      migrateFrom draws ids (done ++ [setField entry "version" (.nat 2)]) prevId drawn rest
    else
      let (id, drawn) := generateId (ids.contains ·) draws drawn
      let entry := setField (setField entry "id" (.str id)) "parentId" (nullable prevId)
      migrateFrom draws ids (done ++ [firstKept (done ++ entry :: rest) entry]) (some id) drawn rest

def migrateV1ToV2 (draws : Nat → Uuid) (entries : List RawEntry) : List RawEntry :=
  migrateFrom draws [] [] none 0 entries

/-! ## What the migration asks for -/

def treeOf (entries : List RawEntry) : List FileEntry :=
  (entries.map Value.obj).filter (!isSession ·)

def Version1 (entries : List RawEntry) : Prop :=
  ∀ e ∈ entries, isSession (.obj e) = false → (Value.obj e).get "id" = .undefined

/-- The entry at `i` is a compaction that keeps the entries from the one at `j`. -/
def Keeps (entries : List RawEntry) (i j : Nat) : Prop :=
  ∃ e index target, entries[i]? = some e ∧ textOf (.obj e) "type" = some "compaction" ∧
    (Value.obj e).get "firstKeptEntryIndex" = .num index ∧ indexOf index = some j ∧
    entries[j]? = some target ∧ isSession (.obj target) = false

/-- Distinct ids, whose path is the whole list, and each compaction names what its index named. -/
structure Migrates (entries migrated : List RawEntry) : Prop where
  distinct : ((treeOf migrated).map idOf).Nodup
  path : ∃ fuel, buildSessionPath fuel (treeOf migrated) none none = some (treeOf migrated)
  kept : ∀ i j, Keeps entries i j → ∃ comp target id, migrated[i]? = some comp ∧
    migrated[j]? = some target ∧ (Value.obj target).get "id" = .str id ∧
    (Value.obj comp).get "firstKeptEntryId" = .str id

/-! ## One entry -/

def shortId (draws : Nat → Uuid) (drawn : Nat) : String :=
  String.ofList ((draws drawn).1.toList.take 8)

theorem generateId_unseen (draws : Nat → Uuid) (drawn : Nat) :
    generateId (([] : List String).contains ·) draws drawn = (shortId draws drawn, drawn + 1) := rfl

theorem shortId_ne (draws : Nat → Uuid) (drawn : Nat) : shortId draws drawn ≠ "" := by
  intro h
  have hlist := congrArg (·.toList.length) h
  simp only [shortId, String.toList_ofList, List.length_take, (draws drawn).2] at hlist
  exact absurd hlist (by decide)

theorem get_erase (fields : RawEntry) (key other : String) :
    (Value.obj (Assoc.erase fields key)).get other =
      if other = key then .undefined else (Value.obj fields).get other := by
  have hlookup (fields : RawEntry) : (Value.obj fields).get other =
      (fields.lookup other).getD .undefined := by
    induction fields with
    | nil => rfl
    | cons f fields ih =>
      rw [Value.get_obj] at ih ⊢
      rw [List.find?_cons, List.lookup_cons]
      by_cases hf : f.1 = other
      · simp [hf]
      · have hbeq : (other == f.1) = false := by simpa using Ne.symm hf
        rw [hbeq]
        simpa [hf] using ih
  rw [hlookup, hlookup, Assoc.lookup_erase]
  split <;> rfl

theorem get_firstKept (entries : List RawEntry) (comp : RawEntry) {key : String}
    (hid : key ≠ "firstKeptEntryId") (hindex : key ≠ "firstKeptEntryIndex") :
    (Value.obj (firstKept entries comp)).get key = (Value.obj comp).get key := by
  unfold firstKept
  split
  · split
    · rw [get_erase, if_neg hindex]
      split
      · split
        · rfl
        · rw [Value.get_setField, if_neg hid]
      · rfl
    · rfl
  · rfl

theorem get_firstKept_id {entries : List RawEntry} {comp target : RawEntry} {index : Number} {j : Nat}
    (htype : textOf (.obj comp) "type" = some "compaction")
    (hget : (Value.obj comp).get "firstKeptEntryIndex" = .num index) (hj : indexOf index = some j)
    (htarget : entries[j]? = some target) (hsession : isSession (.obj target) = false) :
    (Value.obj (firstKept entries comp)).get "firstKeptEntryId" = (Value.obj target).get "id" := by
  have hbind : (indexOf index).bind (entries[·]?) = some target := by rw [hj]; exact htarget
  unfold firstKept
  rw [if_pos htype, hget]
  dsimp only
  rw [hbind, get_erase, if_neg (by decide)]
  simp only [hsession, Bool.false_eq_true, if_false]
  rw [Value.get_setField, if_pos rfl]

/-- A header stays one, and any other entry has an id. -/
def Renewed (e e' : RawEntry) : Prop :=
  isSession (.obj e') = isSession (.obj e) ∧
    (isSession (.obj e) = false → ∃ id, (Value.obj e').get "id" = .str id)

theorem isSession_of_get {e e' : FileEntry} (h : e'.get "type" = e.get "type") :
    isSession e' = isSession e := by
  unfold isSession textOf
  rw [h]

/-! ## The whole list -/

section Run

variable {draws : Nat → Uuid} {done rest : List RawEntry} {prevId : Option String} {drawn : Nat}

variable (draws done rest prevId drawn) in
theorem migrateFrom_entry {entry : RawEntry} (h : isSession (.obj entry) = false) : ∃ made,
    migrateFrom draws [] done prevId drawn (entry :: rest) =
      migrateFrom draws [] (done ++ [made]) (some (shortId draws drawn)) (drawn + 1) rest ∧
    isSession (.obj made) = false ∧ (Value.obj made).get "id" = .str (shortId draws drawn) ∧
    parentOf (.obj made) = prevId ∧
    ∀ index j target, textOf (.obj entry) "type" = some "compaction" →
      (Value.obj entry).get "firstKeptEntryIndex" = .num index → indexOf index = some j →
      (done ++ made :: rest)[j]? = some target → isSession (.obj target) = false →
      (Value.obj made).get "firstKeptEntryId" = (Value.obj target).get "id" := by
  generalize hnew : setField (setField entry "id" (.str (shortId draws drawn))) "parentId"
    (nullable prevId) = new
  have hid : (Value.obj new).get "id" = .str (shortId draws drawn) := by
    rw [← hnew, Value.get_setField, if_neg (by decide), Value.get_setField, if_pos rfl]
  have hother {key : String} (hid : key ≠ "id") (hparent : key ≠ "parentId") :
      (Value.obj new).get key = (Value.obj entry).get key := by
    rw [← hnew, Value.get_setField, if_neg hparent, Value.get_setField, if_neg hid]
  have hmade {key : String} (hid : key ≠ "firstKeptEntryId") (hindex : key ≠ "firstKeptEntryIndex") :=
    get_firstKept (done ++ new :: rest) new hid hindex
  have hsession : isSession (.obj (firstKept (done ++ new :: rest) new)) = false :=
    (isSession_of_get ((hmade (by decide) (by decide)).trans
      (hother (by decide) (by decide)))).trans h
  refine ⟨firstKept (done ++ new :: rest) new, ?_, hsession, (hmade (by decide) (by decide)).trans hid,
    ?_, fun index j target htype hindex hj htarget hnot => ?_⟩
  · rw [migrateFrom, h, if_neg Bool.false_ne_true, generateId_unseen, ← hnew]
  · rw [parentOf, textOf, hmade (by decide) (by decide), ← hnew, Value.get_setField, if_pos rfl]
    cases prevId <;> rfl
  · have htype' : textOf (.obj new) "type" = some "compaction" := by
      rwa [textOf, hother (by decide) (by decide)]
    have hindex' := (hother (by decide) (by decide)).trans hindex
    by_cases hself : j = done.length
    · -- The entry itself already has its id.
      subst hself
      rw [List.getElem?_append_right le_rfl, Nat.sub_self] at htarget
      cases htarget
      have hnew : (done ++ new :: rest)[done.length]? = some new := by simp
      rw [get_firstKept_id htype' hindex' hj hnew, hmade (by decide) (by decide)]
      exact (isSession_of_get (hother (by decide) (by decide))).trans h
    · refine get_firstKept_id htype' hindex' hj ?_ hnot
      rw [← htarget]
      rcases Nat.lt_or_gt_of_ne hself with hlt | hgt
      · rw [List.getElem?_append_left hlt, List.getElem?_append_left hlt]
      · obtain ⟨k, rfl⟩ := Nat.exists_eq_add_of_lt hgt
        rw [List.getElem?_append_right (by omega), List.getElem?_append_right (by omega),
          show done.length + k + 1 - done.length = k + 1 by omega]
        rfl

theorem treeOf_cons (e : RawEntry) (entries : List RawEntry) : treeOf (e :: entries) =
    if isSession (.obj e) then treeOf entries else .obj e :: treeOf entries := by
  unfold treeOf
  rw [List.map_cons, List.filter_cons]
  cases isSession (.obj e) <;> rfl

/-- Each entry of a chain has the one before it for its parent, and the first has `prevId`. -/
def Chained (prevId : Option String) (entries : List FileEntry) : Prop :=
  ∀ front e back, entries = front ++ e :: back →
    parentOf e = (front.getLast?.map idOf).or prevId

theorem Chained.cons {e : FileEntry} {entries : List FileEntry} (he : parentOf e = prevId)
    (h : Chained (some (idOf e)) entries) : Chained prevId (e :: entries) := by
  intro front e' back heq
  cases front with
  | nil =>
    cases heq
    exact he
  | cons first front =>
    obtain ⟨rfl, hrest⟩ := List.cons.inj heq
    rw [h front e' back hrest, List.getLast?_cons]
    cases front.getLast? <;> rfl

variable (draws done rest prevId drawn) in
/-- **The loop** over the entries in front of the others makes a chain of them, with one draw for
each of their ids. -/
theorem migrateFrom_append (front : List RawEntry) : ∃ out prevId' drawn',
    migrateFrom draws [] done prevId drawn (front ++ rest) =
      migrateFrom draws [] (done ++ out) prevId' drawn' rest ∧ List.Forall₂ Renewed front out ∧
    Chained prevId (treeOf out) ∧
    (treeOf out).map idOf = (List.range' drawn (treeOf front).length).map (shortId draws) := by
  induction front generalizing done prevId drawn with
  | nil =>
    exact ⟨[], prevId, drawn, by simp, .nil, fun _ _ _ h => by simp [treeOf] at h, rfl⟩
  | cons entry front ih =>
    cases hsession : isSession (.obj entry) with
    | true =>
      generalize hmade : setField entry "version" (.nat 2) = made
      have hstays : isSession (.obj made) = isSession (.obj entry) :=
        isSession_of_get (hmade ▸ (Value.get_setField ..).trans (if_neg (by decide)))
      obtain ⟨out, prevId', drawn', heq, hall, hchain, hids⟩ :=
        ih (done ++ [made]) prevId drawn
      refine ⟨made :: out, prevId', drawn', ?_,
        .cons ⟨hstays, fun h => Bool.noConfusion (hsession.symm.trans h)⟩ hall, ?_, ?_⟩
      · rw [List.cons_append, migrateFrom, if_pos hsession, hmade, heq, List.append_assoc]
        rfl
      · rwa [treeOf_cons, if_pos (hstays.trans hsession)]
      · rwa [treeOf_cons, if_pos (hstays.trans hsession), treeOf_cons, if_pos hsession]
    | false =>
      obtain ⟨made, hmade, hnot, hid, hparent, -⟩ :=
        migrateFrom_entry draws done (front ++ rest) prevId drawn hsession
      obtain ⟨out, prevId', drawn', heq, hall, hchain, hids⟩ :=
        ih (done ++ [made]) (some (shortId draws drawn)) (drawn + 1)
      have hidOf : idOf (.obj made) = shortId draws drawn := by
        rw [idOf, textOf, hid]
        rfl
      refine ⟨made :: out, prevId', drawn', ?_,
        .cons ⟨hnot.trans hsession.symm, fun _ => ⟨_, hid⟩⟩ hall, ?_, ?_⟩
      · rw [List.cons_append, hmade, heq, List.append_assoc]
        rfl
      · rw [treeOf_cons, hnot, if_neg Bool.false_ne_true]
        exact .cons hparent (hidOf ▸ hchain)
      · rw [treeOf_cons, hnot, if_neg Bool.false_ne_true, treeOf_cons, hsession,
          if_neg Bool.false_ne_true, List.map_cons, hidOf, hids]
        rfl

end Run

theorem buildSessionPath_chained {entries : List FileEntry} (hchain : Chained none entries)
    (hids : (entries.map idOf).Nodup) (hne : ∀ e ∈ entries, idOf e ≠ "") :
    buildSessionPath entries.length entries none none = some entries := by
  have hlookup (e : FileEntry) (he : e ∈ entries) :
      find (buildEntryIndex entries none) (some (idOf e)) = some e := by
    have hfold : (buildEntryIndex entries none).lookup (idOf e) =
        (entries.map fun e => (idOf e, e)).lookup (idOf e) := by
      have hset := @Assoc.lookup_foldl_set _ _ _ [] (idOf e) Prod.fst
        (entries.map fun e => (idOf e, e)) (fun _ _ => rfl) (by rwa [List.map_map])
      rwa [List.foldl_map, List.lookup_nil, Option.or_none] at hset
    rw [find, Option.filter_some, if_pos (by simpa using hne e he)]
    refine hfold.trans (Assoc.lookup_of_mem (by rwa [List.map_map]) ?_)
    exact List.mem_map_of_mem he
  -- The loop over the entries up to one of them.
  have hwalk : ∀ front back path, entries = front ++ back →
      Descent.run (fun path e => (e :: path,
        (find (buildEntryIndex entries none) (parentOf e)).toList)) front.length path
        front.getLast?.toList = some (front ++ path) := by
    intro front
    induction front using List.reverseRecOn with
    | nil => exact fun _ _ _ => rfl
    | append_singleton front e ih =>
      intro back path heq
      rw [List.append_assoc, List.singleton_append] at heq
      have hparent : find (buildEntryIndex entries none) (parentOf e) = front.getLast? := by
        rw [hchain front e back heq, Option.or_none]
        cases hlast : front.getLast? with
        | none => rfl
        | some p =>
          refine hlookup p ?_
          rw [heq]
          exact List.mem_append_left _ (List.mem_of_getLast? hlast)
      rw [List.getLast?_concat, List.length_append, List.append_assoc, List.singleton_append,
        ← ih (e :: back) (e :: path) heq, ← hparent]
      simp [Descent.run]
  have hnone : find (buildEntryIndex entries none) none = none := rfl
  simpa [buildSessionPath, walkUp, hnone] using hwalk entries [] [] (List.append_nil entries).symm

theorem kept_iff {draws : Nat → Uuid} {entries : List RawEntry} (hv : Version1 entries) {i j : Nat}
    (h : Keeps entries i j) : (∃ comp target id, (migrateV1ToV2 draws entries)[i]? = some comp ∧
      (migrateV1ToV2 draws entries)[j]? = some target ∧ (Value.obj target).get "id" = .str id ∧
      (Value.obj comp).get "firstKeptEntryId" = .str id) ↔ j ≤ i := by
  obtain ⟨e, index, target, he, htype, hindex, hj, htarget, hnot⟩ := h
  have hsession : isSession (.obj e) = false := by simp [isSession, htype]
  obtain ⟨front, rest, rfl, rfl⟩ : ∃ front rest, entries = front ++ e :: rest ∧ front.length = i := by
    obtain ⟨hlt, hget⟩ := List.getElem?_eq_some_iff.mp he
    refine ⟨entries.take i, entries.drop (i + 1), ?_, List.length_take_of_le hlt.le⟩
    rw [← hget, List.getElem_cons_drop, List.take_append_drop]
  obtain ⟨done, prevId, drawn, hfront, hdone, -⟩ :=
    migrateFrom_append draws [] (e :: rest) none 0 front
  obtain ⟨made, hmade, hnotmade, hid, -, hkept⟩ :=
    migrateFrom_entry draws done rest prevId drawn hsession
  obtain ⟨out, _, _, hrest, hout, -⟩ :=
    migrateFrom_append draws (done ++ [made]) [] (some (shortId draws drawn)) (drawn + 1) rest
  have hmigrated : migrateV1ToV2 draws (front ++ e :: rest) = done ++ made :: out := by
    rw [List.append_nil] at hrest
    rw [migrateV1ToV2, hfront, List.nil_append, hmade, hrest, migrateFrom, List.append_assoc]
    rfl
  have hlength : front.length = done.length := hdone.length_eq
  have hall : List.Forall₂ Renewed (front ++ e :: rest) (done ++ made :: out) :=
    List.rel_append hdone (.cons ⟨hnotmade.trans hsession.symm, fun _ => ⟨_, hid⟩⟩ hout)
  rw [hmigrated, hlength]
  constructor
  · rintro ⟨comp, -, id, hcomp, -, -, hnamed⟩
    by_contra hlater
    obtain ⟨k, rfl⟩ := Nat.exists_eq_add_of_lt (Nat.lt_of_not_le hlater)
    have hat (e : RawEntry) (front : List RawEntry) (hlength : front.length = done.length) :
        (front ++ e :: rest)[done.length + k + 1]? = rest[k]? := by
      rw [List.getElem?_append_right (by omega), hlength,
        show done.length + k + 1 - done.length = k + 1 by omega]
      rfl
    rw [hat e front hlength] at htarget
    rw [List.getElem?_append_right le_rfl, Nat.sub_self] at hcomp
    cases hcomp
    have hlacks := hv target (List.mem_append_right _ (List.mem_cons_of_mem _
      (List.mem_of_getElem? htarget))) hnot
    rw [hkept index _ target htype hindex hj ((hat made done rfl).trans htarget) hnot, hlacks]
      at hnamed
    cases hnamed
  · intro hle
    obtain ⟨hlt, hget⟩ := List.getElem?_eq_some_iff.mp htarget
    have hlt' : j < (done ++ made :: out).length := hall.length_eq ▸ hlt
    have hrenewed : Renewed target (done ++ made :: out)[j] :=
      hget ▸ (List.forall₂_iff_get.mp hall).2 j hlt hlt'
    obtain ⟨id, hid⟩ := hrenewed.2 hnot
    refine ⟨made, _, id, by simp, List.getElem?_eq_getElem hlt', hid, ?_⟩
    rw [hkept index j _ htype hindex hj ?_ (hrenewed.1.trans hnot), hid]
    rw [← List.getElem?_eq_getElem hlt']
    rcases Nat.lt_or_eq_of_le hle with hlt | rfl
    · rw [List.getElem?_append_left hlt, List.getElem?_append_left hlt]
    · rw [List.getElem?_append_right le_rfl, List.getElem?_append_right le_rfl, Nat.sub_self]
      rfl

/-- **Migrating a session** gives what it should exactly where the draws begin differently and no
compaction names an entry that comes later. -/
theorem migrates_iff (draws : Nat → Uuid) {entries : List RawEntry} (hv : Version1 entries) :
    Migrates entries (migrateV1ToV2 draws entries) ↔
      ((List.range (treeOf entries).length).map (shortId draws)).Nodup ∧
        ∀ i j, Keeps entries i j → j ≤ i := by
  obtain ⟨migrated, _, _, heq, -, hchain, hids⟩ :=
    migrateFrom_append draws [] [] none 0 entries
  rw [List.append_nil, migrateFrom, List.nil_append] at heq
  have hids' : (treeOf migrated).map idOf =
      (List.range (treeOf entries).length).map (shortId draws) := by
    rw [hids, List.range_eq_range']
  have hmigrated : migrateV1ToV2 draws entries = migrated := heq
  constructor
  · intro h
    exact ⟨hids' ▸ hmigrated ▸ h.distinct,
      fun i j hkeeps => (kept_iff hv hkeeps).mp (h.kept i j hkeeps)⟩
  · rintro ⟨hnodup, hback⟩
    have hnodup' := hids' ▸ hnodup
    refine ⟨hmigrated ▸ hnodup', hmigrated ▸ ⟨_, buildSessionPath_chained hchain hnodup' ?_⟩,
      fun i j hkeeps => (kept_iff hv hkeeps).mpr (hback i j hkeeps)⟩
    intro e he
    have hmem := List.mem_map_of_mem (f := idOf) he
    rw [hids] at hmem
    obtain ⟨k, -, hk⟩ := List.mem_map.mp hmem
    exact hk ▸ shortId_ne draws k

/-! ## Loading a session -/

/-- An id that is text, and a parent that is text or null. -/
def HasIds (e : FileEntry) : Prop :=
  (∃ id, e.get "id" = .str id) ∧ ∃ parentId, e.get "parentId" = nullable parentId

/-- **Loading a session file** ends exactly where no walk comes back to where it was, and migrating
it gives the tree that it should exactly where the draws begin differently and no compaction names
an entry that comes later. -/
theorem loads_and_migrates (time : Option String → Option Int) (file : List FileEntry)
    (flushed : Bool) (draws : Nat → Uuid) {entries : List RawEntry} (hv : Version1 entries) :
    (Loads time (Manager.buildIndex file flushed) ↔ Rooted (Manager.buildIndex file flushed)) ∧
    (Migrates entries (migrateV1ToV2 draws entries) ↔
      ((List.range (treeOf entries).length).map (shortId draws)).Nodup ∧
        ∀ i j, Keeps entries i j → j ≤ i) :=
  ⟨loads_iff time file flushed, migrates_iff draws hv⟩

def compactedV1 : List RawEntry :=
  [[("type", .str "message")], [("type", .str "compaction"), ("firstKeptEntryIndex", .nat 0)]]

def repeated (n : Nat) : Uuid :=
  ⟨String.ofList (List.replicate 36 (hexDigit n)), by rw [String.toList_ofList, List.length_replicate]⟩

theorem version1_compactedV1 : Version1 compactedV1 := by
  intro e he _
  simp only [compactedV1, List.mem_cons, List.not_mem_nil, or_false] at he
  rcases he with rfl | rfl <;> rfl

theorem compacted_migrates : Migrates compactedV1 (migrateV1ToV2 repeated compactedV1) := by
  refine (loads_and_migrates (fun _ => none) [] false repeated
    version1_compactedV1).2.mpr ⟨by decide, ?_⟩
  rintro i j ⟨e, index, target, he, htype, hindex, hj, -⟩
  rcases i with _ | _ | i
  · cases he
    exact absurd htype (by decide)
  · cases he
    cases hindex
    have hzero : indexOf (.finite (.ofNat 0)) = some 0 := by
      simp [indexOf, Decimal.units_ofNat, Decimal.negative_ofNat]
    cases hzero.symm.trans hj
    exact Nat.zero_le 1
  · cases he

/-- An entry that is its own parent is walked up from forever; two draws that begin alike are two
entries with one id. -/
theorem own_parent_hangs : (∃ file, (∀ e ∈ file, HasIds e) ∧
      ∀ time flushed, ¬ Loads time (Manager.buildIndex file flushed)) ∧
    ∃ draws entries, Version1 entries ∧ ¬ Migrates entries (migrateV1ToV2 draws entries) := by
  refine ⟨⟨[.obj [("type", .str "message"), ("id", .str "a"), ("parentId", .str "a")]], ?_, ?_⟩,
    fun _ => repeated 0, compactedV1, version1_compactedV1, ?_⟩
  · intro e he
    rw [List.mem_singleton.mp he]
    exact ⟨⟨"a", rfl⟩, some "a", rfl⟩
  · intro time flushed h
    exact ((loads_iff ..).mp h).up (.obj [("type", .str "message"), ("id", .str "a"),
      ("parentId", .str "a")]) (.single rfl)
  · intro h
    exact absurd ((migrates_iff _ version1_compactedV1).mp h).1 (by decide)

end ThreeXhaust.CodingAgent
