import MetaEditor.DAO.Unique

/-!
# The shelf of scripts

For those who use it, a collection of scripts is a shelf: a map from names to chunks. While a collection
shelves a map, `read` looks a name up in it, `update` and `create` put a chunk under a name, and `findAll`
lists all of it.
-/

namespace MetaEditor

open Lib DatabaseManager

abbrev Shelf := Bytes → Option Bytes

/-- The document of a stored script. -/
def scriptDocument (id : Oid) (name chunk : Bytes) : Bson :=
  [("_id", .oid id), ("name", .utf8 name), ("binaryData", .binary bsonSubtypeBinary chunk)]

/-- A script that is read back as it was written. -/
structure Storable (name chunk : Bytes) : Prop where
  name_ne : name ≠ []
  noNul : 0 ∉ name
  chunk_ne : chunk ≠ []

/-- Every document is a stored script, and together they are the map. -/
structure Shelves (c : Collection) (shelf : Shelf) : Prop where
  unique : Unique c
  stored : ∀ e ∈ c, ∃ id name chunk, e = scriptDocument id name chunk ∧ Storable name chunk
  holds : ∀ name chunk, shelf name = some chunk ↔ ∃ id, scriptDocument id name chunk ∈ c

theorem shelves_nil : Shelves [] fun _ => none where
  unique := ⟨uniqueIn_nil, uniqueIn_nil⟩
  stored := nofun
  holds name chunk := by simp

/-! ### Documents of scripts -/

/-- A script that was read. -/
def readScript (id : Oid) (name chunk : Bytes) : Script :=
  { mId := id, mName := name, mUpdate := true, mBinaryData := chunk }

/-- The chunk of the document goes behind the data that the receiver has. -/
theorem unwrap_scriptDocument {name chunk : Bytes} (h : Storable name chunk) (r : Script) (id : Oid) :
    r.unwrap (scriptDocument id name chunk) = (true, readScript id name (r.mBinaryData ++ chunk)) := by
  have hname : BSONUtils.getString (scriptDocument id name chunk) "name" = name := cString_eq_self h.noNul
  have hid : BSONUtils.getOID (scriptDocument id name chunk) r.mId = (true, id) := rfl
  have hchunk : BSONUtils.getArray (scriptDocument id name chunk) "binaryData" r.mBinaryData =
      (true, r.mBinaryData ++ chunk) := if_pos (List.length_pos_of_ne_nil h.chunk_ne)
  have hobject : r.toObject.unwrap (scriptDocument id name chunk) =
      (true, { mId := id, mName := name, mUpdate := true }) := by
    unfold Object.unwrap
    simp only [hname, hid, if_pos h.name_ne]
  unfold Script.unwrap
  simp only [hobject, hchunk, if_true]
  rfl

theorem new_unwrap_scriptDocument {name chunk : Bytes} (h : Storable name chunk) (memory id : Oid) :
    (Script.new memory).unwrap (scriptDocument id name chunk) = (true, readScript id name chunk) :=
  unwrap_scriptDocument h (Script.new memory) id

theorem fields_script (s : Script) (generated : Oid) : (AnyObject.script s).fields generated =
    scriptDocument (if s.mUpdate then s.mId else generated) (cString s.mName) s.mBinaryData := rfl

theorem setFields_scriptDocument (id id' : Oid) (name name' chunk chunk' : Bytes) :
    setFields (scriptDocument id name chunk) (scriptDocument id' name' chunk') = scriptDocument id' name' chunk' := by
  simp [setFields, setField, scriptDocument]

theorem scriptDocument_inj {id id' : Oid} {name name' chunk chunk' : Bytes}
    (h : scriptDocument id name chunk = scriptDocument id' name' chunk') : name = name' ∧ chunk = chunk' := by
  simp only [scriptDocument, List.cons.injEq, Prod.mk.injEq, BsonValue.utf8.injEq, BsonValue.binary.injEq] at h
  exact ⟨h.2.1.2, h.2.2.1.2.2⟩

namespace Shelves

variable {c : Collection} {shelf : Shelf} {d : Driver} {bcon : Bytes → Bson} {id : Oid} {name chunk : Bytes}

/-! ### read -/

theorem storable (h : Shelves c shelf) (hc : scriptDocument id name chunk ∈ c) : Storable name chunk := by
  obtain ⟨id', name', chunk', he, hs⟩ := h.stored _ hc
  obtain ⟨rfl, rfl⟩ := scriptDocument_inj he
  exact hs

/-- No document has a name that is not on the shelf. -/
theorem name_ne (h : Shelves c shelf) (hnone : shelf name = none) : ∀ e ∈ c, e.lookup "name" ≠ some (.utf8 name) := by
  intro e he hname
  obtain ⟨id, name', chunk, rfl, -⟩ := h.stored e he
  obtain rfl : name' = name := by simpa [scriptDocument, lookup_cons_eq] using hname
  rw [(h.holds _ _).mpr ⟨id, he⟩] at hnone
  cases hnone

/-- A name that is on the shelf is found, with its chunk. -/
theorem readIn_some (h : Shelves c shelf) (hq : d.query = true) (hbcon : bcon name = bareName name)
    (hc : scriptDocument id name chunk ∈ c) : readIn Script bcon d name c = some (readScript id name chunk) := by
  have hs := h.storable hc
  have hquery : Agrees (bareName name) (scriptDocument id name chunk) := agrees_singleton.mpr rfl
  have hall : ∀ e ∈ findDocuments (bareName name) c, e = scriptDocument id name chunk := by
    intro e he
    obtain ⟨hec, hname⟩ := mem_findDocuments.mp he
    exact h.unique.names.eq_of_mem hec hc (agrees_singleton.mp hname) rfl
  have hnext : readNext Script d name (scriptDocument id name chunk) = some (readScript id name chunk) := by
    show (if ((Script.new d.memory).unwrap _).1 = true ∧ ((Script.new d.memory).unwrap _).2.mName = name then
      some ((Script.new d.memory).unwrap _).2 else none) = _
    rw [new_unwrap_scriptDocument hs]
    exact if_pos ⟨rfl, rfl⟩
  have hfound : scriptDocument id name chunk ∈ findDocuments (bareName name) c := mem_findDocuments.mpr ⟨hc, hquery⟩
  unfold readIn
  rw [cString_eq_self hs.noNul, hbcon, cursor_of_query hq]
  cases hfind : findDocuments (bareName name) c with
  | nil =>
    rw [hfind] at hfound
    exact absurd hfound List.not_mem_nil
  | cons e rest =>
    rw [hall e (hfind ▸ List.mem_cons_self), List.findSome?_cons_of_isSome (by rw [hnext]; rfl)]
    exact hnext

/-- Any other name is not found. -/
theorem readIn_none (h : Shelves c shelf) (hq : d.query = true) (hbcon : bcon name = bareName name)
    (hnul : 0 ∉ name) (hnone : shelf name = none) : readIn Script bcon d name c = none := by
  have hempty : findDocuments (bareName name) c = [] := by
    refine List.eq_nil_iff_forall_not_mem.mpr fun e he => ?_
    obtain ⟨hec, hname⟩ := mem_findDocuments.mp he
    exact h.name_ne hnone e hec (agrees_singleton.mp hname)
  unfold readIn
  rw [cString_eq_self hnul, hbcon, cursor_of_query hq, hempty]
  rfl

/-! ### update and create -/

/-- The chunk under a name is replaced. -/
theorem replace {before after : Collection} (h : Shelves (before ++ scriptDocument id name chunk :: after) shelf)
    {chunk' : Bytes} (hne : chunk' ≠ []) :
    Shelves (before ++ scriptDocument id name chunk' :: after) (Function.update shelf name (some chunk')) := by
  have hmem : scriptDocument id name chunk ∈ before ++ scriptDocument id name chunk :: after :=
    mem_middle.mpr (.inl rfl)
  have hids := uniqueIn_middle.mp h.unique.ids
  have hnames := uniqueIn_middle.mp h.unique.names
  refine ⟨⟨uniqueIn_middle.mpr hids, uniqueIn_middle.mpr hnames⟩, ?_, ?_⟩
  · intro e he
    rcases mem_middle.mp he with rfl | he
    · exact ⟨id, name, chunk', rfl, { h.storable hmem with chunk_ne := hne }⟩
    · exact h.stored e (mem_middle.mpr (.inr he))
  · intro m b
    by_cases hm : m = name
    · subst hm
      rw [Function.update_self, Option.some.injEq]
      refine ⟨fun hb => ⟨id, mem_middle.mpr (.inl (hb ▸ rfl))⟩, ?_⟩
      rintro ⟨id', hid'⟩
      rcases mem_middle.mp hid' with he | he
      · exact (scriptDocument_inj he).2.symm
      · exact absurd rfl (hnames.1 _ rfl _ he)
    · rw [Function.update_of_ne hm, h.holds]
      have hother : ∀ id' chunk'', scriptDocument id' m b ≠ scriptDocument id name chunk'' :=
        fun id' chunk'' he => hm (scriptDocument_inj he).1
      refine exists_congr fun id' => ?_
      rw [mem_middle, mem_middle, or_iff_right (hother id' chunk), or_iff_right (hother id' chunk')]

/-- A chunk is put under a new name. -/
theorem add (h : Shelves c shelf) (hs : Storable name chunk) (hnone : shelf name = none)
    (hid : ∀ e ∈ c, e.lookup "_id" ≠ some (.oid id)) :
    Shelves (c ++ [scriptDocument id name chunk]) (Function.update shelf name (some chunk)) := by
  refine ⟨⟨uniqueIn_snoc.mpr ⟨?_, h.unique.ids⟩, uniqueIn_snoc.mpr ⟨?_, h.unique.names⟩⟩, ?_, ?_⟩
  · rintro v ⟨rfl⟩
    exact hid
  · rintro v ⟨rfl⟩
    exact h.name_ne hnone
  · intro e he
    rcases List.mem_append.mp he with he | he
    · exact h.stored e he
    · exact ⟨id, name, chunk, List.mem_singleton.mp he, hs⟩
  · intro m b
    by_cases hm : m = name
    · subst hm
      rw [Function.update_self, Option.some.injEq]
      refine ⟨fun hb => ⟨id, hb ▸ List.mem_append_right _ (List.mem_singleton.mpr rfl)⟩, ?_⟩
      rintro ⟨id', he⟩
      rcases List.mem_append.mp he with he | he
      · exact absurd rfl (h.name_ne hnone _ he)
      · exact (scriptDocument_inj (List.mem_singleton.mp he)).2.symm
    · rw [Function.update_of_ne hm, h.holds]
      refine exists_congr fun id' => ⟨fun he => List.mem_append_left _ he, fun he => ?_⟩
      rcases List.mem_append.mp he with he | he
      · exact he
      · exact absurd (scriptDocument_inj (List.mem_singleton.mp he)).1 hm

/-- `update` of a script that was read and has a new chunk. -/
theorem updateIn (h : Shelves c shelf) (hd : d.Succeeds) (hc : scriptDocument id name chunk ∈ c) {chunk' : Bytes}
    (hne : chunk' ≠ []) :
    (updateIn d (.script (readScript id name chunk')) c).1 = true ∧
      Shelves (DatabaseManager.updateIn d (.script (readScript id name chunk')) c).2.2
        (Function.update shelf name (some chunk')) := by
  have hs := h.storable hc
  obtain ⟨before, after, rfl⟩ := List.append_of_mem hc
  have hother := h.unique.other_id (e := scriptDocument id name chunk) rfl
  have hfields : (AnyObject.script (readScript id name chunk')).fields d.generated = scriptDocument id name chunk' := by
    rw [fields_script]
    exact congrArg (scriptDocument id · chunk') (cString_eq_self hs.noNul)
  have hbefore : ∀ e ∈ before, e.lookup "_id" ≠ some (.oid (AnyObject.script (readScript id name chunk')).id) :=
    fun e he => hother e (List.mem_append_left after he)
  rw [updateIn_of_split hd.2.1 hd.2.2 hbefore rfl rfl, hfields, setFields_scriptDocument]
  exact ⟨rfl, h.replace hne⟩

/-- `create` of a script under a name that is not on the shelf. -/
theorem createIn (h : Shelves c shelf) (hd : d.Succeeds) (hs : Storable name chunk) (hnone : shelf name = none)
    (hid : ∀ e ∈ c, e.lookup "_id" ≠ some (.oid d.generated)) (memory : Oid) :
    (createIn d (.script (.ofData memory name chunk)) c).1 = true ∧
      (DatabaseManager.createIn d (.script (.ofData memory name chunk)) c).2.2 =
        c ++ [scriptDocument d.generated name chunk] := by
  have hname : DatabaseManager.findName d name c = false := by
    rw [← Bool.not_eq_true, findName_iff hd.2.1, cString_eq_self hs.noNul]
    rintro ⟨e, he, hname⟩
    exact h.name_ne hnone e he hname
  have hfields : (AnyObject.script (.ofData memory name chunk)).fields d.generated =
      scriptDocument d.generated name chunk := by
    rw [fields_script]
    exact congrArg (scriptDocument d.generated · chunk) (cString_eq_self hs.noNul)
  have hins : insertDocument "_id" (scriptDocument d.generated name chunk) c =
      some (c ++ [scriptDocument d.generated name chunk]) := insertDocument_of_new fun e he => hid e he
  have hcreate : DatabaseManager.createIn d (.script (.ofData memory name chunk)) c =
      (true, (AnyObject.script (.ofData memory name chunk)).stamped d.generated,
        c ++ [scriptDocument d.generated name chunk]) := by
    unfold DatabaseManager.createIn insertWrapped collectionInsert
    rw [if_neg (by show ¬ DatabaseManager.findName d name c = true; rw [hname]; decide), AnyObject.wrap_eq,
      List.nil_append, hfields]
    simp only [if_pos hd.2.2, hins]
  rw [hcreate]
  exact ⟨rfl, rfl⟩

/-! ### findAll -/

theorem findAllNext_scriptDocument (hs : Storable name chunk) :
    findAllNext Script d (scriptDocument id name chunk) = some (readScript id name chunk) := by
  show (if ((Script.new d.memory).unwrap _).1 = true then some ((Script.new d.memory).unwrap _).2 else none) = _
  rw [new_unwrap_scriptDocument hs]
  exact if_pos rfl

theorem mem_findAllIn (h : Shelves c shelf) (hq : d.query = true) {s : Script} :
    s ∈ findAllIn Script d c ↔ ∃ id name chunk, scriptDocument id name chunk ∈ c ∧ s = readScript id name chunk := by
  unfold findAllIn
  rw [cursor_of_query hq, List.mem_filterMap]
  constructor
  · rintro ⟨e, he, hs⟩
    obtain ⟨id, name, chunk, rfl, hstore⟩ := h.stored e (mem_findDocuments.mp he).1
    rw [findAllNext_scriptDocument hstore, Option.some.injEq] at hs
    exact ⟨id, name, chunk, (mem_findDocuments.mp he).1, hs.symm⟩
  · rintro ⟨id, name, chunk, hc, rfl⟩
    exact ⟨_, mem_findDocuments.mpr ⟨hc, nofun⟩, findAllNext_scriptDocument (h.storable hc)⟩

/-- `findAll` gives one script for each name on the shelf. -/
theorem nodup_findAllIn (h : Shelves c shelf) (hq : d.query = true) :
    ((findAllIn Script d c).map (·.mName)).Nodup := by
  have hall : findDocuments [] c = c := List.filter_eq_self.mpr fun e _ => decide_eq_true (by simp [Agrees])
  have hnames : ∀ l : Collection, (∀ e ∈ l, e ∈ c) →
      l.filterMap (·.lookup "name") = ((l.filterMap (findAllNext Script d)).map (·.mName)).map BsonValue.utf8 := by
    intro l
    induction l with
    | nil => exact fun _ => rfl
    | cons e l ih =>
      intro hl
      obtain ⟨he, hrest⟩ := List.forall_mem_cons.mp hl
      obtain ⟨id, name, chunk, rfl, hs⟩ := h.stored e he
      rw [List.filterMap_cons_some (findAllNext_scriptDocument hs), List.map_cons, List.map_cons, ← ih hrest]
      exact List.filterMap_cons_some rfl
  have hnodup := h.unique.names
  unfold UniqueIn at hnodup
  rw [hnames c fun _ he => he] at hnodup
  unfold findAllIn
  rw [cursor_of_query hq, hall]
  exact hnodup.of_map _

theorem findAllIn_iff (h : Shelves c shelf) (hq : d.query = true) (name chunk : Bytes) :
    (∃ s ∈ findAllIn Script d c, s.mName = name ∧ s.binaryData = chunk) ↔ shelf name = some chunk := by
  simp only [h.mem_findAllIn hq]
  rw [h.holds]
  constructor
  · rintro ⟨s, ⟨id, m, b, hc, rfl⟩, rfl, rfl⟩
    exact ⟨id, hc⟩
  · rintro ⟨id, hc⟩
    exact ⟨readScript id name chunk, ⟨id, name, chunk, hc, rfl⟩, rfl, rfl⟩

end Shelves

end MetaEditor
