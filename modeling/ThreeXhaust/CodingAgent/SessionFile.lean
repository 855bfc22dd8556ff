import ThreeXhaust.CodingAgent.SessionManager
import ThreeXhaust.Lib.Json.SortKeys
import ThreeXhaust.Lib.Run
import Mathlib.Data.List.Induction

/-!
# Session files keep up with memory

A run of calls on a manager and its file. What the file holds, or will hold once it is created, is
the `image`: memory before the first flush, the entries of the file after it. An append that goes
through adds its entry to the image; one that throws takes the entry out of memory again, and the
image stays, or has the entry although memory has not (`Holds.appendEntry`). That carries what is
asked of the file: no entry of memory is missing in the image, and no entry of the image has a
parent that is not in front of it.

It rests on what a write that throws leaves behind. The code takes the entry out of memory, not out
of the file, so half a line stays there and the next append goes on with it; a file created by a
flush that fails is never written again; and `branchWithSummary` moves the leaf before it appends.
-/

namespace ThreeXhaust.CodingAgent

open Json

/-! ## What a file holds -/

structure Stored (e : FileEntry) : Prop where
  json : e.IsJson
  object : ∃ fields, e = .obj fields

theorem parseSessionEntryLine_nil : parseSessionEntryLine [] = none := by
  have hblank : Tui.isBlank (decodeUtf8 []) = true := by
    have hempty : decodeUtf8 [] = "" := decodeUtf8_utf8 ""
    rw [hempty]
    rfl
  rw [parseSessionEntryLine]
  simp only [hblank, if_true]

/-- **A line is read as it was written.** -/
theorem Stored.parse {e : FileEntry} (h : Stored e) :
    parseSessionEntryLine (utf8 e.stringify) = some e := by
  obtain ⟨fields, rfl⟩ := h.object
  have hblank : Tui.isBlank (Value.obj fields).stringify = false := by
    rw [Tui.isBlank, Value.stringify, String.toList_ofList, Value.text, List.all_cons]
    rfl
  rw [parseSessionEntryLine, decodeUtf8_utf8]
  simp only [hblank, parse_stringify _ h.json, Option.filter_some, Value.truthy, if_true]
  rfl

theorem readEntries_eq (file : Bytes) :
    readEntries file =
      ((Lines.split 10 file).1.filterMap parseSessionEntryLine ++
        (parseSessionEntryLine (Lines.split 10 file).2).toList, (Lines.split 10 file).2) := by
  rw [readEntries, Lines.read_eq, Lines.pieces_flatten (by decide) _ _ (Nat.le_refl _)]

structure Holding (file : Bytes) (entries : List FileEntry) : Prop where
  finished : Lines.Finished 10 file
  read : (readEntries file).1 = entries

/-- **An append** of a whole line adds its entry. -/
theorem Holding.append {file : Bytes} {entries : List FileEntry} {e : FileEntry}
    (h : Holding file entries) (he : Stored e) : Holding (file ++ e.line) (entries ++ [e]) := by
  have hsplit := Lines.split_append_line h.finished (newline_not_mem_line e)
  have hread : (Lines.split 10 file).1.filterMap parseSessionEntryLine = entries := by
    rw [← h.read, readEntries_eq, h.finished, parseSessionEntryLine_nil]
    exact (List.append_nil _).symm
  constructor
  · rw [Lines.Finished, Value.line, hsplit]
  · rw [readEntries_eq, Value.line, hsplit, List.filterMap_append, hread]
    simp only [parseSessionEntryLine_nil, Option.toList_none, List.append_nil,
      List.filterMap_cons, he.parse, List.filterMap_nil]

theorem Holding.empty : Holding [] [] := by
  constructor
  · rfl
  · rw [readEntries_eq]
    show ([] : List FileEntry) ++ (parseSessionEntryLine []).toList = []
    rw [parseSessionEntryLine_nil]
    rfl

theorem Holding.lines {entries : List FileEntry} (h : ∀ e ∈ entries, Stored e) :
    Holding (entries.flatMap Value.line) entries := by
  induction entries using List.reverseRecOn with
  | nil => exact Holding.empty
  | append_singleton entries e ih =>
    have hfront := ih fun e he => h e (List.mem_append_left _ he)
    have hlast := h e (List.mem_append_right _ (List.mem_singleton_self e))
    rw [List.flatMap_append, List.flatMap_singleton]
    exact hfront.append hlast

def loaded (file : Bytes) : List FileEntry := (loadEntriesFromFile file).1

theorem Holding.loaded {file : Bytes} {header : FileEntry} {rest : List FileEntry}
    (h : Holding file (header :: rest)) (hheader : isHeader header = true) :
    loaded file = header :: rest := by
  have hread : readEntries file = (header :: rest, (readEntries file).2) := by
    rw [← h.read]
  rw [CodingAgent.loaded, loadEntriesFromFile, hread]
  simp only [hheader, if_true]

theorem holding_of_load {file repaired : Bytes} {entries : List FileEntry}
    (h : loadEntriesFromFile file = (entries, repaired)) (hne : entries ≠ []) :
    Holding repaired entries ∧ ∃ header rest, entries = header :: rest ∧ isHeader header = true := by
  obtain ⟨read, pending, hread⟩ : ∃ read pending, readEntries file = (read, pending) := ⟨_, _, rfl⟩
  rw [loadEntriesFromFile, hread] at h
  cases read with
  | nil =>
    obtain ⟨rfl, -⟩ := Prod.mk.inj h
    exact absurd rfl hne
  | cons header rest =>
    simp only at h
    split at h
    · next hheader =>
      obtain ⟨rfl, rfl⟩ := Prod.mk.inj h
      refine ⟨?_, header, rest, rfl, hheader⟩
      rw [readEntries_eq, Prod.mk.injEq] at hread
      obtain ⟨hentries, htail⟩ := hread
      split
      · next hpending =>
        exact ⟨htail.trans hpending, by rw [readEntries_eq, hentries]⟩
      · -- the unfinished line gets its break
        have hsplit := @Lines.split_finish UInt8 _ 10 file
        constructor
        · rw [Lines.Finished, hsplit]
        · rw [readEntries_eq, hsplit, ← hentries, List.filterMap_append]
          simp only [parseSessionEntryLine_nil, Option.toList_none, List.append_nil]
          congr 1
    · obtain ⟨rfl, -⟩ := Prod.mk.inj h
      exact absurd rfl hne

/-! ## Parents -/

/-- The parent of an entry is null or one of the entries in front of it. -/
def ParentIn (front : List FileEntry) (e : FileEntry) : Prop :=
  e.get "parentId" = .null ∨
    ∃ p ∈ front, isSession p = false ∧ ∃ id, textOf p "id" = some id ∧ e.get "parentId" = .str id

def WellParented (entries : List FileEntry) : Prop :=
  ∀ front e back, entries = front ++ e :: back → isSession e = false → ParentIn front e

theorem WellParented.append {entries : List FileEntry} {e : FileEntry}
    (h : WellParented entries) (he : ParentIn entries e) : WellParented (entries ++ [e]) := by
  intro front x back heq hx
  cases back using List.reverseRecOn with
  | nil =>
    obtain ⟨rfl, hlast⟩ := List.append_inj' heq rfl
    rw [← List.singleton_inj.mp hlast]
    exact he
  | append_singleton back last =>
    have hfront : entries = front ++ x :: back := by
      rw [← List.cons_append, ← List.append_assoc] at heq
      exact (List.append_inj' heq rfl).1
    exact h front x back hfront hx

theorem wellParented_header {header : FileEntry} (h : isSession header = true) :
    WellParented [header] := by
  intro front e back heq he
  cases front with
  | nil =>
    obtain ⟨rfl, -⟩ := List.cons.inj heq
    rw [h] at he
    cases he
  | cons x front =>
    have hlen := congrArg List.length heq
    simp at hlen

/-! ## Runs -/

inductive Start : World → Prop where
  /-- There is no file yet. -/
  | new (sessionId timestamp cwd : String) (parentSession : Option String) :
      Start ⟨newSession (newHeader sessionId timestamp cwd parentSession), none, []⟩
  /-- The file is there and empty: it gets its header. -/
  | empty (sessionId timestamp cwd : String) :
      Start ⟨{ newSession (newHeader sessionId timestamp cwd none) with flushed := true },
        some (newHeader sessionId timestamp cwd none).line, []⟩
  /-- The file holds a session of the current version, every entry with an id of its own and
  behind its parent. -/
  | resumed (file repaired : Bytes) (entries : List FileEntry) (version : Nat)
      (hload : loadEntriesFromFile file = (entries, repaired)) (hentries : entries ≠ [])
      (hversion : ∃ header ∈ entries.head?, header.get "version" = .nat version)
      (hcurrent : 3 ≤ version)
      (hids : ∀ e ∈ entries, isSession e = false → (textOf e "id").isSome)
      (hdistinct : ((entries.filter (! isSession ·)).map (textOf · "id")).Nodup)
      (hparents : WellParented entries) :
      Start ⟨Manager.buildIndex entries true, some repaired, []⟩

def FreshId (w : World) (c : Call) : Prop :=
  c.env.fallback ∉ w.manager.byId.map Prod.fst

instance (w : World) (c : Call) : Decidable (FreshId w c) :=
  inferInstanceAs (Decidable (_ ∉ _))

structure Clean (w : World) (c : Call) : Prop where
  /-- No write leaves a part of its bytes behind. -/
  whole : ∀ n, c.env.fault = .writing n → n = 0
  /-- The first flush fails only before there is a file. -/
  flush : w.manager.flushed = false → c.env.fault = .none ∨ c.env.fault = .opening
  /-- `branchWithSummary` fails only where it would not have moved the leaf. -/
  leaf : ∀ branchFromId summary details fromHook usage,
    c.operation = .branchWithSummary branchFromId summary details fromHook usage →
    c.env.fault = .none ∨ branchFromId = w.manager.leafId

structure KeepsUp (guard : World → Call → Prop) (w : World) : Prop where
  /-- A call that throws leaves the entries, the index, the labels and the leaf as they were. -/
  rollback : ∀ c error, guard w c → (w.call c).2 = .error error → (w.call c).1.manager = w.manager
  /-- The file gives every entry whose append returned, in order. -/
  entries : ∀ file, w.disk = some file → w.returned.Sublist (loaded file)
  parents : ∀ file, w.disk = some file → WellParented (loaded file)

/-! ## The image -/

/-- `image` is what the file holds, or what a first flush would put there. -/
structure Holds (w : World) (image : List FileEntry) : Prop where
  header : ∃ header rest, image = header :: rest ∧ isHeader header = true
  returned : w.returned.Sublist image
  parents : WellParented image
  ids : ∀ id ∈ w.manager.byId.map Prod.fst,
    ∃ e ∈ image, isSession e = false ∧ textOf e "id" = some id
  leaf : ∀ id, w.manager.leafId = some id → id ∈ w.manager.byId.map Prod.fst
  flushed : w.manager.flushed = true → ∃ file, w.disk = some file ∧ Holding file image
  unflushed : w.manager.flushed = false →
    w.disk = none ∧ w.manager.fileEntries = image ∧ ∀ e ∈ image, Stored e

structure Fits (m : Manager) (e : FileEntry) : Prop where
  stored : Stored e
  entry : isSession e = false
  id : ∃ id, textOf e "id" = some id ∧ id ∉ m.byId.map Prod.fst
  parent : e.get "parentId" = nullable m.leafId

variable {w : World} {image : List FileEntry} {e : FileEntry}

theorem Holds.parentIn (h : Holds w image) (he : Fits w.manager e) : ParentIn image e := by
  rw [ParentIn, he.parent]
  cases hleaf : w.manager.leafId with
  | none => exact .inl rfl
  | some id =>
    obtain ⟨p, hp, hsession, hid⟩ := h.ids id (h.leaf id hleaf)
    exact .inr ⟨p, hp, hsession, id, hid, rfl⟩

theorem Holds.extra (h : Holds w image) (he : Fits w.manager e) {file : Bytes}
    (hflushed : w.manager.flushed = true) (hfile : Holding file image) :
    Holds { w with disk := some (file ++ e.line) } (image ++ [e]) where
  header := by
    obtain ⟨header, rest, rfl, hheader⟩ := h.header
    exact ⟨header, rest ++ [e], rfl, hheader⟩
  returned := h.returned.trans (List.sublist_append_left _ _)
  parents := h.parents.append (h.parentIn he)
  ids := by
    intro id hid
    obtain ⟨p, hp, hrest⟩ := h.ids id hid
    exact ⟨p, List.mem_append_left _ hp, hrest⟩
  leaf := h.leaf
  flushed := fun _ => ⟨_, rfl, hfile.append he.stored⟩
  unflushed := by
    intro hunflushed
    rw [show w.manager.flushed = true from hflushed] at hunflushed
    cases hunflushed

theorem Fits.put_keys (he : Fits w.manager e) :
    ∃ id, textOf e "id" = some id ∧ (w.manager.put e).leafId = some id ∧
      (w.manager.put e).byId.map Prod.fst = w.manager.byId.map Prod.fst ++ [id] := by
  obtain ⟨id, hid, hfresh⟩ := he.id
  have hidOf : idOf e = id := by
    rw [idOf, hid]
    rfl
  refine ⟨id, hid, congrArg some hidOf, ?_⟩
  show (Assoc.set w.manager.byId (idOf e) e).map Prod.fst = _
  rw [hidOf, Assoc.map_fst_set, if_neg hfresh]

theorem Holds.put (h : Holds w image) (he : Fits w.manager e) (disk : Option Bytes)
    (flushed : Bool)
    (hflushed : flushed = true → ∃ file, disk = some file ∧ Holding file (image ++ [e]))
    (hunflushed : flushed = false → w.manager.flushed = false ∧ disk = none) :
    Holds ⟨{ w.manager.put e with flushed }, disk, w.returned ++ [e]⟩ (image ++ [e]) := by
  obtain ⟨new, hnew, hleaf, hkeys⟩ := he.put_keys
  refine ⟨?_, h.returned.append (List.Sublist.refl _), h.parents.append (h.parentIn he), ?_, ?_,
    hflushed, ?_⟩
  · obtain ⟨header, rest, rfl, hheader⟩ := h.header
    exact ⟨header, rest ++ [e], rfl, hheader⟩
  · intro id hid
    rw [show (Manager.byId { w.manager.put e with flushed }).map Prod.fst = _ from hkeys,
      List.mem_append, List.mem_singleton] at hid
    rcases hid with hid | rfl
    · obtain ⟨p, hp, hrest⟩ := h.ids id hid
      exact ⟨p, List.mem_append_left _ hp, hrest⟩
    · exact ⟨e, List.mem_append_right _ (List.mem_singleton_self e), he.entry, hnew⟩
  · intro id hid
    rw [hleaf] at hid
    rw [hkeys, ← Option.some.inj hid]
    exact List.mem_append_right _ (List.mem_singleton_self new)
  · intro hfalse
    obtain ⟨hwas, hdisk⟩ := hunflushed hfalse
    obtain ⟨-, hentries, hstored⟩ := h.unflushed hwas
    refine ⟨hdisk, congrArg (· ++ [e]) hentries, ?_⟩
    intro x hx
    rcases List.mem_append.mp hx with hx | hx
    · exact hstored x hx
    · rw [List.mem_singleton.mp hx]
      exact he.stored

/-! ## An append -/

/-- What is left of a call: the image with the entry it returned, or memory as it was. -/
def Kept (w : World) : World × Except String FileEntry → Prop
  | (after, .ok e) => ∃ image, Holds { after with returned := after.returned ++ [e] } image
  | (after, .error _) => after.manager = w.manager ∧ ∃ image, Holds after image

theorem Kept.of_ok {w' : World} {result : World × Except String FileEntry}
    (h : Kept w' result) (hok : result.2 = .ok e) : Kept w result := by
  obtain ⟨after, result⟩ := result
  cases hok
  exact h

theorem Fits.takeOut_put {m : Manager} (he : Fits m e) : (m.put e).takeOut e m.leafId = m := by
  obtain ⟨id, hid, hfresh⟩ := he.id
  have hidOf : idOf e = id := by
    rw [idOf, hid]
    rfl
  simp only [Manager.takeOut, Manager.put, List.dropLast_concat, hidOf,
    Assoc.erase_set_of_not_mem hfresh]

/-- **An append** to the file. -/
theorem Holds.appendLine (h : Holds w image) (he : Fits w.manager e) {fault : Fault}
    (hflushed : w.manager.flushed = true) (hwhole : ∀ n, fault = .writing n → n = 0) :
    Kept w (w.appendEntry fault e) := by
  obtain ⟨file, hdisk, hfile⟩ := h.flushed hflushed
  have hput : (w.manager.put e).flushed = true := hflushed
  have hback := he.takeOut_put
  have hnext := hfile.append he.stored
  unfold World.appendEntry World.persist
  simp only [hput, if_true, hdisk, Option.getD_some, Option.isSome_some, Bool.true_or]
  cases fault with
  | none =>
    have hholds := h.put he (some (file ++ e.line)) true (fun _ => ⟨_, rfl, hnext⟩)
      (fun hf => by cases hf)
    rw [← hput] at hholds
    exact ⟨_, hholds⟩
  | opening =>
    refine ⟨hback, image, ?_⟩
    show Holds ⟨(w.manager.put e).takeOut e w.manager.leafId, some file, w.returned⟩ image
    rw [hback, ← hdisk]
    exact h
  | writing n =>
    -- nothing of the line was written
    obtain rfl := hwhole n rfl
    refine ⟨hback, image, ?_⟩
    show Holds ⟨(w.manager.put e).takeOut e w.manager.leafId, some (file ++ []), w.returned⟩ image
    rw [hback, List.append_nil, ← hdisk]
    exact h
  | closing =>
    -- the line was written, and memory does not have it
    refine ⟨hback, image ++ [e], ?_⟩
    show Holds ⟨(w.manager.put e).takeOut e w.manager.leafId, some (file ++ e.line), w.returned⟩ _
    rw [hback]
    exact h.extra he hflushed hfile

/-- **An append** of a session that has no file: a setup entry stays in memory, and the first
message of the conversation brings everything. -/
theorem Holds.appendNew (h : Holds w image) (he : Fits w.manager e) {fault : Fault}
    (hunflushed : w.manager.flushed = false) (hfault : fault = .none ∨ fault = .opening) :
    Kept w (w.appendEntry fault e) := by
  obtain ⟨hdisk, hentries, hstored⟩ := h.unflushed hunflushed
  have hput : (w.manager.put e).flushed = false := hunflushed
  have hall : ∀ x ∈ image ++ [e], Stored x := by
    intro x hx
    rcases List.mem_append.mp hx with hx | hx
    · exact hstored x hx
    · rw [List.mem_singleton.mp hx]
      exact he.stored
  have hputEntries : (w.manager.put e).fileEntries = image ++ [e] := congrArg (· ++ [e]) hentries
  unfold World.appendEntry World.persist
  simp only [hput, Bool.false_eq_true, if_false, hdisk, Option.isSome_none]
  by_cases hconversation : hasConversation (w.manager.put e).fileEntries = true
  · simp only [hconversation, if_true]
    rcases hfault with rfl | rfl
    · have hholds := h.put he (some ((w.manager.put e).fileEntries.flatMap Value.line)) true
        (fun _ => ⟨_, rfl, by rw [hputEntries]; exact Holding.lines hall⟩) (fun hf => by cases hf)
      exact ⟨_, hholds⟩
    · refine ⟨he.takeOut_put, image, ?_⟩
      show Holds ⟨(w.manager.put e).takeOut e w.manager.leafId, none, w.returned⟩ image
      rw [he.takeOut_put, ← hdisk]
      exact h
  · simp only [hconversation]
    have hholds := h.put he none false (fun hf => by cases hf) (fun _ => ⟨hunflushed, rfl⟩)
    rw [← hput] at hholds
    exact ⟨_, hholds⟩

theorem Holds.appendEntry_ok (h : Holds w image) (e : FileEntry) :
    (w.appendEntry .none e).2 = .ok e := by
  unfold World.appendEntry World.persist
  cases hflushed : w.manager.flushed with
  | true =>
    simp only [show (w.manager.put e).flushed = true from hflushed, if_true]
    rfl
  | false =>
    obtain ⟨hdisk, -, -⟩ := h.unflushed hflushed
    simp only [show (w.manager.put e).flushed = false from hflushed, Bool.false_eq_true, if_false,
      hdisk]
    by_cases hconversation : hasConversation (w.manager.put e).fileEntries = true
    · simp only [hconversation]
      rfl
    · simp only [hconversation]
      rfl

theorem Holds.appendEntry (h : Holds w image) (he : Fits w.manager e) {fault : Fault}
    (hwhole : ∀ n, fault = .writing n → n = 0)
    (hflush : w.manager.flushed = false → fault = .none ∨ fault = .opening) :
    Kept w (w.appendEntry fault e) := by
  cases hflushed : w.manager.flushed with
  | true => exact h.appendLine he hflushed hwhole
  | false => exact h.appendNew he hflushed (hflush hflushed)

/-! ## The entries the operations append -/

theorem generateId_fresh {env : Env} {byId : List (String × FileEntry)}
    (h : env.fallback ∉ byId.map Prod.fst) : env.generateId byId ∉ byId.map Prod.fst := by
  rw [Env.generateId]
  cases hfind : env.tries.find? fun id => (byId.lookup id).isNone with
  | none => exact h
  | some id =>
    have hnone := List.find?_some hfind
    rw [Option.isNone_iff_eq_none] at hnone
    exact Assoc.lookup_eq_none_iff.mp hnone

structure Fields (keys : List String) (extra : List (String × Value)) : Prop where
  keys : (extra.map Prod.fst).Sublist keys
  json : ∀ f ∈ extra, f.2.IsJson

theorem Fields.one (key : String) {v : Value} (h : v.IsJson) : Fields [key] [(key, v)] := by
  refine ⟨List.Sublist.refl _, fun f hf => ?_⟩
  rw [List.mem_singleton.mp hf]
  exact h

theorem Fields.append {keys keys' : List String} {extra extra' : List (String × Value)}
    (h : Fields keys extra) (h' : Fields keys' extra') :
    Fields (keys ++ keys') (extra ++ extra') := by
  constructor
  · rw [List.map_append]
    exact h.keys.append h'.keys
  · intro f hf
    rcases List.mem_append.mp hf with hf | hf
    · exact h.json f hf
    · exact h'.json f hf

theorem Fields.cons (key : String) {v : Value} {keys : List String}
    {extra : List (String × Value)} (hv : v.IsJson) (h : Fields keys extra) :
    Fields (key :: keys) ((key, v) :: extra) :=
  (Fields.one key hv).append h

theorem fields_optional (key : String) (v : Option Payload) : Fields [key] (optional key v) := by
  cases v with
  | none => exact ⟨List.nil_sublist _, by simp [optional]⟩
  | some v => exact Fields.one key v.2

theorem fields_optionalText (key : String) (v : Option String) :
    Fields [key] (optionalText key v) := by
  cases v with
  | none => exact ⟨List.nil_sublist _, by simp [optionalText]⟩
  | some v => exact Fields.one key (Value.isJson_str v)

theorem fields_optionalFlag (key : String) (v : Option Bool) :
    Fields [key] (optionalFlag key v) := by
  cases v with
  | none => exact ⟨List.nil_sublist _, by simp [optionalFlag]⟩
  | some v => exact Fields.one key (Value.isJson_bool v)

variable {env : Env} {m : Manager} {type : String} {keys : List String}
  {extra : List (String × Value)}

theorem fits_of_perm {fields : List (String × Value)}
    (hperm : fields.Perm (baseFields env m type ++ extra)) (hextra : Fields keys extra)
    (hkeys : (["type", "id", "parentId", "timestamp"] ++ keys).Nodup) (htype : type ≠ "session")
    (hfresh : env.fallback ∉ m.byId.map Prod.fst) : Fits m (.obj fields) := by
  have hnodup : (fields.map Prod.fst).Nodup := by
    refine (hperm.map Prod.fst).nodup_iff.mpr ?_
    rw [List.map_append]
    exact hkeys.sublist ((List.Sublist.refl _).append hextra.keys)
  have hbase : ∀ f ∈ baseFields env m type, f ∈ fields := fun f hf =>
    hperm.mem_iff.mpr (List.mem_append_left _ hf)
  have htypeOf : textOf (.obj fields) "type" = some type := by
    rw [textOf, Value.get_of_mem hnodup (hbase ("type", .str type) (by simp [baseFields]))]
  have hidOf : textOf (.obj fields) "id" = some (env.generateId m.byId) := by
    rw [textOf, Value.get_of_mem hnodup
      (hbase ("id", .str (env.generateId m.byId)) (by simp [baseFields]))]
  refine ⟨⟨Value.isJson_obj.mpr ⟨hnodup, ?_⟩, fields, rfl⟩, ?_, ⟨_, hidOf, generateId_fresh hfresh⟩, ?_⟩
  · intro f hf
    rcases List.mem_append.mp (hperm.mem_iff.mp hf) with hf | hf
    · -- texts, and the parent, which may be null
      simp only [baseFields, List.mem_cons, List.not_mem_nil, or_false] at hf
      rcases hf with rfl | rfl | rfl | rfl
      · exact Value.isJson_str _
      · exact Value.isJson_str _
      · cases m.leafId with
        | none => trivial
        | some id => exact Value.isJson_str id
      · exact Value.isJson_str _
    · exact hextra.json f hf
  · rw [isSession, htypeOf]
    simpa using htype
  · exact Value.get_of_mem hnodup (hbase ("parentId", nullable m.leafId) (by simp [baseFields]))

/-! ## The operations -/

structure Calm (w : World) (env : Env) : Prop where
  fresh : env.fallback ∉ w.manager.byId.map Prod.fst
  whole : ∀ n, env.fault = .writing n → n = 0
  flush : w.manager.flushed = false → env.fault = .none ∨ env.fault = .opening

theorem Holds.appends (h : Holds w image) (hcalm : Calm w env) (hextra : Fields keys extra)
    (hkeys : (["type", "id", "parentId", "timestamp"] ++ keys).Nodup) (htype : type ≠ "session") :
    Kept w (w.appendEntry env.fault (.obj (baseFields env w.manager type ++ extra))) :=
  h.appendEntry (fits_of_perm (List.Perm.refl _) hextra hkeys htype hcalm.fresh) hcalm.whole
    hcalm.flush

theorem Holds.appendsCustom (h : Holds w image) (hcalm : Calm w env) (hextra : Fields keys extra)
    (hkeys : (["type", "id", "parentId", "timestamp"] ++ keys).Nodup) (htype : type ≠ "session") :
    Kept w (w.appendEntry env.fault
      (.obj (("type", .str type) :: (extra ++ (baseFields env w.manager type).drop 1)))) :=
  h.appendEntry (fits_of_perm (List.Perm.cons _ List.perm_append_comm) hextra hkeys htype
    hcalm.fresh) hcalm.whole hcalm.flush

theorem Holds.refuses (h : Holds w image) (error : String) : Kept w (w, .error error) :=
  ⟨rfl, image, h⟩

theorem Holds.appendMessage (h : Holds w image) (hcalm : Calm w env) (message : Message) :
    Kept w (w.appendMessage env message) :=
  h.appends hcalm (Fields.one "message" message.2.1) (by decide) (by decide)

theorem Holds.appendThinkingLevelChange (h : Holds w image) (hcalm : Calm w env)
    (thinkingLevel : String) : Kept w (w.appendThinkingLevelChange env thinkingLevel) :=
  h.appends hcalm (Fields.one "thinkingLevel" (Value.isJson_str thinkingLevel)) (by decide) (by decide)

theorem Holds.appendModelChange (h : Holds w image) (hcalm : Calm w env)
    (provider modelId : String) : Kept w (w.appendModelChange env provider modelId) := by
  have hextra := Fields.cons "provider" (Value.isJson_str provider)
    (Fields.one "modelId" (Value.isJson_str modelId))
  exact h.appends hcalm hextra (by decide) (by decide)

theorem Holds.appendUsage (h : Holds w image) (hcalm : Calm w env) (kind provider model : String)
    (usage : Payload) (note : Option String) :
    Kept w (w.appendUsage env kind provider model usage note) := by
  have hnote := fields_optionalText "note" (note.filter (· ≠ ""))
  have hextra := Fields.cons "kind" (Value.isJson_str kind)
    (Fields.cons "provider" (Value.isJson_str provider)
      (Fields.cons "model" (Value.isJson_str model) (Fields.cons "usage" usage.2 hnote)))
  exact h.appends hcalm hextra (by decide) (by decide)

theorem Holds.appendCompaction (h : Holds w image) (hcalm : Calm w env) (summary : String)
    (firstKeptEntryId : Option String) (tokensBefore : Decimal) (details : Option Payload)
    (fromHook : Option Bool) (usage systemMessage : Option Payload) :
    Kept w (w.appendCompaction env summary firstKeptEntryId tokensBefore details fromHook usage
      systemMessage) := by
  have hoptional := (((fields_optional "details" details).append
    (fields_optional "usage" usage)).append (fields_optionalFlag "fromHook" fromHook)).append
    (fields_optional "systemMessage" systemMessage)
  have hextra := Fields.cons "summary" (Value.isJson_str summary)
    (Fields.cons "firstKeptEntryId"
      (Value.isJson_str (firstKeptEntryId.getD (env.generateId w.manager.byId)))
      (Fields.cons "tokensBefore" (v := .num (.finite tokensBefore)) ⟨tokensBefore, rfl⟩ hoptional))
  exact h.appends hcalm hextra (by decide) (by decide)

theorem Holds.appendCustomEntry (h : Holds w image) (hcalm : Calm w env) (customType : String)
    (data : Option Payload) : Kept w (w.appendCustomEntry env customType data) := by
  have hextra := Fields.cons "customType" (Value.isJson_str customType) (fields_optional "data" data)
  exact h.appendsCustom hcalm hextra (by decide) (by decide)

theorem Holds.appendSessionInfo (h : Holds w image) (hcalm : Calm w env) (name : String) :
    Kept w (w.appendSessionInfo env name) :=
  h.appends hcalm (Fields.one "name" (Value.isJson_str _)) (by decide) (by decide)

theorem Holds.appendCustomMessageEntry (h : Holds w image) (hcalm : Calm w env)
    (customType : String) (content : Payload) (display : Bool) (details : Option Payload) :
    Kept w (w.appendCustomMessageEntry env customType content display details) := by
  have hextra := Fields.cons "customType" (Value.isJson_str customType)
    (Fields.cons "content" content.2
      (Fields.cons "display" (Value.isJson_bool display) (fields_optional "details" details)))
  exact h.appendsCustom hcalm hextra (by decide) (by decide)

theorem isJson_normalizeReplacement (target : Value) (replacement : Payload) :
    (normalizeReplacement target replacement.1).IsJson := by
  have hchoice (text : String) (p : Prop) [Decidable p] : (if p then .obj [("content", .arr
      [.obj [("type", .str "text"), ("text", .str text)]])] else replacement.1 : Value).IsJson := by
    split
    · simp [Value.isJson_obj, Value.isJson_arr]
    · exact replacement.2
  unfold normalizeReplacement
  dsimp only
  cases replacement.1.get "content" with
  | str text => exact hchoice text _
  | _ => exact replacement.2

theorem Holds.appendContextEdit (h : Holds w image) (hcalm : Calm w env) (targetId : String)
    (replacement : Payload) : Kept w (w.appendContextEdit env targetId replacement) := by
  unfold World.appendContextEdit
  dsimp only
  split
  · exact h.refuses _
  · split
    · exact h.refuses _
    · next target _ =>
      split
      · exact h.refuses _
      · split
        · exact h.refuses _
        · have hextra := Fields.cons "targetId" (Value.isJson_str targetId)
            (Fields.one "replacement" (isJson_normalizeReplacement target replacement))
          exact h.appends hcalm hextra (by decide) (by decide)

theorem Holds.labels (h : Holds w image) (labelsById labelTimestampsById : List (String × String)) :
    Holds { w with manager := { w.manager with labelsById, labelTimestampsById } } image :=
  ⟨h.header, h.returned, h.parents, h.ids, h.leaf, h.flushed, h.unflushed⟩

theorem Holds.appendLabelChange (h : Holds w image) (hcalm : Calm w env) (targetId : String)
    (label : Option String) : Kept w (w.appendLabelChange env targetId label) := by
  unfold World.appendLabelChange
  split
  · exact h.refuses _
  · have hextra := Fields.cons "targetId" (Value.isJson_str targetId)
      (fields_optionalText "label" label)
    have hkept : Kept w (w.appendEntry env.fault (.obj (baseFields env w.manager "label" ++ _))) :=
      h.appends hcalm hextra (by decide) (by decide)
    obtain ⟨after, result, hresult⟩ : ∃ after result, w.appendEntry env.fault
        (.obj (baseFields env w.manager "label" ++
          (("targetId", .str targetId) :: optionalText "label" label))) = (after, result) :=
      ⟨_, _, rfl⟩
    rw [hresult] at hkept
    simp only [List.singleton_append, hresult]
    cases result with
    | error error => exact hkept
    | ok entry =>
      obtain ⟨image', hholds⟩ := hkept
      -- the labels change behind the append
      cases label.filter (· ≠ "") with
      | none => exact ⟨image', hholds.labels _ _⟩
      | some label => exact ⟨image', hholds.labels _ _⟩

theorem Holds.moveLeaf (h : Holds w image) {leafId : Option String}
    (hleaf : ∀ id, leafId = some id → id ∈ w.manager.byId.map Prod.fst) :
    Holds { w with manager := { w.manager with leafId } } image :=
  ⟨h.header, h.returned, h.parents, h.ids, hleaf, h.flushed, h.unflushed⟩

theorem mem_of_lookup_isSome {byId : List (String × FileEntry)} {id : String}
    (h : (byId.lookup id).isNone = false) : id ∈ byId.map Prod.fst := by
  by_contra hmem
  rw [Assoc.lookup_eq_none_iff.mpr hmem] at h
  cases h

theorem Holds.branchWithSummary (h : Holds w image) (hcalm : Calm w env)
    (branchFromId : Option String) (summary : String) (details : Option Payload)
    (fromHook : Option Bool) (usage : Option Payload)
    (hleaf : env.fault = .none ∨ branchFromId = w.manager.leafId) :
    Kept w (w.branchWithSummary env branchFromId summary details fromHook usage) := by
  unfold World.branchWithSummary
  cases hknown : branchFromId.filter fun id => (w.manager.byId.lookup id).isNone with
  | some id => exact h.refuses _
  | none =>
    have hin : ∀ id, branchFromId = some id → id ∈ w.manager.byId.map Prod.fst := by
      rintro id rfl
      apply mem_of_lookup_isSome
      simpa [Option.filter_some] using hknown
    have hmoved := h.moveLeaf hin
    have hoptional := ((fields_optional "details" details).append
      (fields_optional "usage" usage)).append (fields_optionalFlag "fromHook" fromHook)
    have hextra := Fields.cons "fromId" (Value.isJson_str (w.manager.leafId.getD "root"))
      (Fields.cons "summary" (Value.isJson_str summary) hoptional)
    let moved : World := { w with manager := { w.manager with leafId := branchFromId } }
    let entry : FileEntry := .obj (baseFields env moved.manager "branch_summary" ++
      ("fromId", .str (w.manager.leafId.getD "root")) :: ("summary", .str summary) ::
        (optional "details" details ++ optional "usage" usage ++ optionalFlag "fromHook" fromHook))
    have hcalm' : Calm moved env := ⟨hcalm.fresh, hcalm.whole, hcalm.flush⟩
    have hkept : Kept moved (moved.appendEntry env.fault entry) :=
      hmoved.appends hcalm' hextra (by decide) (by decide)
    show Kept w (moved.appendEntry env.fault entry)
    rcases hleaf with hfault | hsame
    · -- the write goes through
      have hok : (moved.appendEntry .none entry).2 = .ok entry := hmoved.appendEntry_ok entry
      rw [← hfault] at hok
      exact hkept.of_ok hok
    · -- the leaf is where it was
      have heq : moved = w := by
        show World.mk { w.manager with leafId := branchFromId } w.disk w.returned = w
        rw [hsame]
      rwa [heq] at hkept ⊢

/-! ## Runs -/

def Leaves (w : World) : World × Except String (Option FileEntry) → Prop
  | (after, .ok (some e)) =>
    ∃ image, Holds { after with returned := after.returned ++ [e] } image
  | (after, .ok none) => ∃ image, Holds after image
  | (after, .error _) => after.manager = w.manager ∧ ∃ image, Holds after image

theorem Kept.leaves {result : World × Except String FileEntry} (h : Kept w result) :
    Leaves w (result.1, result.2.map some) := by
  obtain ⟨after, result⟩ := result
  cases result with
  | ok e => exact h
  | error error => exact h

/-- **A clean call**, whichever operation it is. -/
theorem Holds.call (h : Holds w image) {c : Call} (hfresh : FreshId w c) (hclean : Clean w c) :
    Leaves w (w.call c) := by
  have hcalm : Calm w c.env := ⟨hfresh, hclean.whole, hclean.flush⟩
  obtain ⟨env, operation⟩ := c
  cases operation with
  | appendMessage message => exact (h.appendMessage hcalm message).leaves
  | appendThinkingLevelChange level => exact (h.appendThinkingLevelChange hcalm level).leaves
  | appendModelChange provider modelId => exact (h.appendModelChange hcalm provider modelId).leaves
  | appendUsage kind provider model usage note =>
    exact (h.appendUsage hcalm kind provider model usage note).leaves
  | appendCompaction summary kept tokens details fromHook usage system =>
    exact (h.appendCompaction hcalm summary kept tokens details fromHook usage system).leaves
  | appendCustomEntry customType data => exact (h.appendCustomEntry hcalm customType data).leaves
  | appendSessionInfo name => exact (h.appendSessionInfo hcalm name).leaves
  | appendCustomMessageEntry customType content display details =>
    exact (h.appendCustomMessageEntry hcalm customType content display details).leaves
  | appendContextEdit targetId replacement =>
    exact (h.appendContextEdit hcalm targetId replacement).leaves
  | appendLabelChange targetId label => exact (h.appendLabelChange hcalm targetId label).leaves
  | branch branchFromId =>
    show Leaves w ((w.branch branchFromId).1, (w.branch branchFromId).2.map fun _ => none)
    unfold World.branch
    split
    · exact ⟨rfl, image, h⟩
    · next hknown =>
      refine ⟨image, h.moveLeaf ?_⟩
      rintro id ⟨⟩
      exact mem_of_lookup_isSome (by simpa using hknown)
  | resetLeaf => exact ⟨image, h.moveLeaf (fun id hid => by cases hid)⟩
  | branchWithSummary branchFromId summary details fromHook usage =>
    exact (h.branchWithSummary hcalm branchFromId summary details fromHook usage
      (hclean.leaf _ _ _ _ _ rfl)).leaves

theorem Holds.step (h : Holds w image) {c : Call} (hfresh : FreshId w c) (hclean : Clean w c) :
    ∃ image, Holds (w.step c) image := by
  have hleaves := h.call hfresh hclean
  rw [World.step]
  generalize w.call c = outcome at hleaves
  obtain ⟨after, result⟩ := outcome
  cases result with
  | error error => exact hleaves.2
  | ok entry =>
    cases entry with
    | none => exact hleaves
    | some entry => exact hleaves

theorem Holds.rollback (h : Holds w image) {c : Call} (hfresh : FreshId w c) (hclean : Clean w c)
    {error : String} (herror : (w.call c).2 = .error error) :
    (w.call c).1.manager = w.manager := by
  have hleaves := h.call hfresh hclean
  generalize w.call c = outcome at hleaves herror
  obtain ⟨after, result⟩ := outcome
  cases herror
  exact hleaves.1

theorem Holds.loaded (h : Holds w image) {file : Bytes} (hdisk : w.disk = some file) :
    loaded file = image := by
  obtain ⟨header, rest, rfl, hheader⟩ := h.header
  cases hflushed : w.manager.flushed with
  | true =>
    obtain ⟨file', hdisk', hholding⟩ := h.flushed hflushed
    rw [hdisk] at hdisk'
    cases hdisk'
    exact hholding.loaded hheader
  | false =>
    rw [(h.unflushed hflushed).1] at hdisk
    cases hdisk

/-! ## Sessions as they start -/

theorem isHeader_newHeader (sessionId timestamp cwd : String) (parentSession : Option String) :
    isHeader (newHeader sessionId timestamp cwd parentSession) = true := by
  simp [isHeader, isSession, textOf, newHeader, Value.get]

theorem isSession_of_isHeader {e : FileEntry} (h : isHeader e = true) : isSession e = true := by
  rw [isHeader, Bool.and_eq_true] at h
  exact h.1

theorem stored_newHeader (sessionId timestamp cwd : String) (parentSession : Option String) :
    Stored (newHeader sessionId timestamp cwd parentSession) := by
  have hextra := fields_optionalText "parentSession" parentSession
  have hfields := Fields.cons "type" (Value.isJson_str "session")
    (Fields.cons "version" (Value.isJson_nat 3) (Fields.cons "id" (Value.isJson_str sessionId)
      (Fields.cons "timestamp" (Value.isJson_str timestamp)
        (Fields.cons "cwd" (Value.isJson_str cwd) hextra))))
  refine ⟨Value.isJson_obj.mpr ⟨List.Nodup.sublist hfields.keys (by decide), hfields.json⟩, _, rfl⟩

theorem index_entry (m : Manager) {e : FileEntry} (h : isSession e = false) :
    (m.index e).byId = Assoc.set m.byId (idOf e) e ∧ (m.index e).leafId = some (idOf e) ∧
      (m.index e).flushed = m.flushed := by
  unfold Manager.index
  simp only [h, Bool.false_eq_true, if_false]
  split_ifs
  · -- a label
    cases textOf e "label" with
    | none => exact ⟨rfl, rfl, rfl⟩
    | some label =>
      dsimp only
      split_ifs <;> exact ⟨rfl, rfl, rfl⟩
  · exact ⟨rfl, rfl, rfl⟩

structure Indexed (image : List FileEntry) (m : Manager) : Prop where
  ids : ∀ id ∈ m.byId.map Prod.fst,
    ∃ e ∈ image, isSession e = false ∧ textOf e "id" = some id
  leaf : ∀ id, m.leafId = some id → id ∈ m.byId.map Prod.fst
  flushed : m.flushed = true

theorem Indexed.index {m : Manager} (h : Indexed image m) (he : e ∈ image)
    (hid : isSession e = false → (textOf e "id").isSome) : Indexed image (m.index e) := by
  cases hsession : isSession e with
  | true =>
    have hsame : m.index e = m := by
      unfold Manager.index
      simp only [hsession, if_true]
    rwa [hsame]
  | false =>
    obtain ⟨id, hsome⟩ := Option.isSome_iff_exists.mp (hid hsession)
    have hidOf : idOf e = id := by
      rw [idOf, hsome]
      rfl
    obtain ⟨hbyId, hleaf, hflushed⟩ := index_entry m hsession
    refine ⟨?_, ?_, hflushed.trans h.flushed⟩
    · intro other hother
      rw [hbyId] at hother
      obtain ⟨entry, hentry, rfl⟩ := List.mem_map.mp hother
      rcases Assoc.mem_set hentry with rfl | hold
      · exact ⟨e, he, hsession, hsome.trans (congrArg some hidOf.symm)⟩
      · exact h.ids _ (List.mem_map.mpr ⟨entry, hold, rfl⟩)
    · intro other hother
      rw [hleaf] at hother
      rw [hbyId, ← Option.some.inj hother]
      exact Assoc.lookup_eq_none_iff.not_left.mp (by rw [Assoc.lookup_set]; simp)

theorem Indexed.foldl {entries : List FileEntry} (hin : ∀ e ∈ entries, e ∈ image)
    (hids : ∀ e ∈ entries, isSession e = false → (textOf e "id").isSome) {m : Manager}
    (h : Indexed image m) : Indexed image (entries.foldl Manager.index m) := by
  induction entries generalizing m with
  | nil => exact h
  | cons e rest ih =>
    rw [List.foldl_cons]
    have hfirst := h.index (hin e List.mem_cons_self) (hids e List.mem_cons_self)
    exact ih (fun x hx => hin x (List.mem_cons_of_mem _ hx))
      (fun x hx => hids x (List.mem_cons_of_mem _ hx)) hfirst

theorem Start.holds (h : Start w) : ∃ image, Holds w image := by
  cases h with
  | new sessionId timestamp cwd parentSession =>
    have hheader := isHeader_newHeader sessionId timestamp cwd parentSession
    refine ⟨[newHeader sessionId timestamp cwd parentSession], ⟨_, [], rfl, hheader⟩,
      List.nil_sublist _, wellParented_header (isSession_of_isHeader hheader),
      (fun id hid => by cases hid), (fun id hid => by cases hid), (fun hf => by cases hf), fun _ => ?_⟩
    refine ⟨rfl, rfl, fun e he => ?_⟩
    rw [List.mem_singleton.mp he]
    exact stored_newHeader sessionId timestamp cwd parentSession
  | empty sessionId timestamp cwd =>
    have hheader := isHeader_newHeader sessionId timestamp cwd none
    have hholding := Holding.empty.append (stored_newHeader sessionId timestamp cwd none)
    rw [List.nil_append, List.nil_append] at hholding
    refine ⟨[newHeader sessionId timestamp cwd none], ⟨_, [], rfl, hheader⟩,
      List.nil_sublist _, wellParented_header (isSession_of_isHeader hheader),
      (fun id hid => by cases hid), (fun id hid => by cases hid), fun _ => ⟨_, rfl, hholding⟩,
      (fun hf => by cases hf)⟩
  | resumed file repaired entries version hload hentries hversion hcurrent hids hdistinct hparents =>
    obtain ⟨hholding, hheader⟩ := holding_of_load hload hentries
    have hindexed : Indexed entries (Manager.buildIndex entries true) :=
      Indexed.foldl (fun _ he => he) hids
        ⟨(fun id hid => by cases hid), (fun id hid => by cases hid), rfl⟩
    refine ⟨entries, hheader, List.nil_sublist _, hparents, hindexed.ids, hindexed.leaf,
      fun _ => ⟨repaired, rfl, hholding⟩, fun hf => ?_⟩
    rw [show (Manager.buildIndex entries true).flushed = true from hindexed.flushed] at hf
    cases hf

/-! ## The claim on runs -/

/-- **The session file keeps up with memory.** In every run, from a new session, an empty file or a
file that is loaded, whose writes leave no part of a line, no part of a first flush, and no branch
half made: a call that throws changes nothing in memory, and the file gives every entry whose
append returned, in order, none under a parent that is missing. -/
theorem session_keeps_up {w₀ w : World} (hstart : Start w₀)
    (hrun : Run.Reachable World.step (fun w c => FreshId w c ∧ Clean w c) w₀ w) :
    KeepsUp (fun w c => FreshId w c ∧ Clean w c) w := by
  have hholds : ∃ image, Holds w image :=
    hrun.invariant (fun w => ∃ image, Holds w image) hstart.holds fun s c hs hc => by
      obtain ⟨image, hs⟩ := hs
      exact hs.step hc.1 hc.2
  obtain ⟨image, h⟩ := hholds
  refine ⟨fun c error hc herror => h.rollback hc.1 hc.2 herror, fun file hdisk => ?_,
    fun file hdisk => ?_⟩
  · rw [h.loaded hdisk]
    exact h.returned
  · rw [h.loaded hdisk]
    exact h.parents

/-- A setup entry, the first message, and a message that cannot be written. -/
theorem session_keeps_up_firstMessage :
    let start : World := ⟨newSession (newHeader "s" "2026-01-01" "/" none), none, []⟩
    let user : Message := ⟨.obj [("role", .str "user")], by simp [Value.isJson_obj], _, rfl⟩
    let setup : Call := ⟨⟨["a"], "a-a", "2026-01-01", .none⟩, .appendModelChange "p" "m"⟩
    let first : Call := ⟨⟨["a", "b"], "b-b", "2026-01-01", .none⟩, .appendMessage user⟩
    let lost : Call := ⟨⟨["c"], "c-c", "2026-01-01", .opening⟩, .appendMessage user⟩
    KeepsUp (fun w c => FreshId w c ∧ Clean w c) (((start.step setup).step first).step lost) := by
  intro start user setup first lost
  have hclean (w : World) (c : Call) (hfault : c.env.fault = .none ∨ c.env.fault = .opening)
      (hoperation : ∀ branchFromId summary details fromHook usage,
        c.operation ≠ .branchWithSummary branchFromId summary details fromHook usage) :
      Clean w c := by
    refine ⟨?_, fun _ => hfault, fun _ _ _ _ _ h => absurd h (hoperation _ _ _ _ _)⟩
    intro n hn
    rcases hfault with hfault | hfault
    · rw [hfault] at hn
      cases hn
    · rw [hfault] at hn
      cases hn
  have hsetup : FreshId start setup := by decide
  have hfirst : FreshId (start.step setup) first := by decide +kernel
  have hlost : FreshId ((start.step setup).step first) lost := by decide +kernel
  apply session_keeps_up (Start.new "s" "2026-01-01" "/" none)
  refine .step lost (.step first (.step setup .init ⟨hsetup, ?_⟩) ⟨hfirst, ?_⟩) ⟨hlost, ?_⟩
  · exact hclean _ _ (.inl rfl) (by rintro _ _ _ _ _ ⟨⟩)
  · exact hclean _ _ (.inl rfl) (by rintro _ _ _ _ _ ⟨⟩)
  · exact hclean _ _ (.inr rfl) (by rintro _ _ _ _ _ ⟨⟩)

/-- `branchWithSummary` to the root, from behind an entry, with a write that throws: the leaf is
not put back. -/
theorem branchWithSummary_moves_leaf :
    let start : World := ⟨{ newSession (newHeader "s" "2026-01-01" "/" none) with flushed := true },
      some (newHeader "s" "2026-01-01" "/" none).line, []⟩
    let append : Call := ⟨⟨["a"], "a-a", "2026-01-01", .none⟩, .appendModelChange "p" "m"⟩
    Start start ∧ Run.Reachable World.step FreshId start (start.step append) ∧
      ¬ KeepsUp FreshId (start.step append) := by
  intro start append
  let summary : Call := ⟨⟨["b"], "b-b", "2026-01-01", .opening⟩,
    .branchWithSummary none "left behind" none none none⟩
  refine ⟨Start.empty "s" "2026-01-01" "/", .step append .init (by decide), fun h => ?_⟩
  have herror : ((start.step append).call summary).2 = .error "EIO" := rfl
  have hmanager := h.rollback summary "EIO" (by decide +kernel) herror
  have hleaf : ((start.step append).call summary).1.manager.leafId = none := rfl
  rw [hmanager] at hleaf
  cases hleaf

end ThreeXhaust.CodingAgent
