import MetaEditor.DAO.Destroy
import MetaEditor.DAO.Shelf
import MetaEditor.Lib.Run

/-!
# A catalogue of scripts

Requests as clients of the manager make them: a new script is created; a stored one is read, and then changed and
updated, renamed and updated, or destroyed; all are listed. On a collection that shelves a map, they do to the map
what they say, and answer what it holds: the manager is a dictionary, as long as no script is given the name of
another one.
-/

namespace MetaEditor

open Lib DatabaseManager

namespace Shelves

variable {c c' before after : Collection} {shelf : Shelf} {id : Oid} {name name' chunk : Bytes}

/-- The order of the documents does not matter. -/
theorem perm (h : Shelves c shelf) (hperm : c.Perm c') : Shelves c' shelf where
  unique := ⟨(hperm.filterMap _).nodup_iff.mp h.unique.ids, (hperm.filterMap _).nodup_iff.mp h.unique.names⟩
  stored e he := h.stored e (hperm.mem_iff.mpr he)
  holds name chunk := by simp only [h.holds, hperm.mem_iff]

/-- A document is taken away. -/
theorem remove (h : Shelves (before ++ scriptDocument id name chunk :: after) shelf) :
    Shelves (before ++ after) (Function.update shelf name none) := by
  have hids := uniqueIn_middle.mp h.unique.ids
  have hnames := uniqueIn_middle.mp h.unique.names
  refine ⟨⟨hids.2, hnames.2⟩, fun e he => h.stored e (mem_middle.mpr (.inr he)), fun m b => ?_⟩
  by_cases hm : m = name
  · subst hm
    rw [Function.update_self]
    refine iff_of_false nofun ?_
    rintro ⟨id', he⟩
    exact hnames.1 _ rfl _ he rfl
  · rw [Function.update_of_ne hm, h.holds]
    refine exists_congr fun id' => ?_
    rw [mem_middle, or_iff_right]
    exact fun he => hm (scriptDocument_inj he).1

/-- A document gets a name that is free, or that it has. -/
theorem rename (h : Shelves (before ++ scriptDocument id name chunk :: after) shelf) (hs : Storable name' chunk)
    (hfree : Function.update shelf name none name' = none) :
    Shelves (before ++ scriptDocument id name' chunk :: after)
      (Function.update (Function.update shelf name none) name' (some chunk)) := by
  have hid := h.unique.other_id (e := scriptDocument id name chunk) rfl
  refine (h.remove.add hs hfree hid).perm ?_
  exact (List.perm_append_singleton _ _).trans List.perm_middle.symm

/-- `updateIn` of a script that was read and has got another name. -/
theorem updateIn_setName {d : Driver} (h : Shelves c shelf) (hd : d.Succeeds) (hc : scriptDocument id name chunk ∈ c)
    (hs : Storable name' chunk) (hfree : Function.update shelf name none name' = none) :
    (DatabaseManager.updateIn d (.script (readScript id name' chunk)) c).1 = true ∧
      Shelves (DatabaseManager.updateIn d (.script (readScript id name' chunk)) c).2.2
        (Function.update (Function.update shelf name none) name' (some chunk)) := by
  obtain ⟨before, after, rfl⟩ := List.append_of_mem hc
  have hother := h.unique.other_id (e := scriptDocument id name chunk) rfl
  have hfields : (AnyObject.script (readScript id name' chunk)).fields d.generated = scriptDocument id name' chunk := by
    rw [fields_script]
    exact congrArg (scriptDocument id · chunk) (cString_eq_self hs.noNul)
  have hbefore : ∀ e ∈ before, e.lookup "_id" ≠ some (.oid (AnyObject.script (readScript id name' chunk)).id) :=
    fun e he => hother e (List.mem_append_left after he)
  rw [updateIn_of_split hd.2.1 hd.2.2 hbefore rfl rfl, hfields, setFields_scriptDocument]
  exact ⟨rfl, h.rename hs hfree⟩

/-- `destroyIn` of a script that was read. -/
theorem destroyIn {d : Driver} (h : Shelves c shelf) (hd : d.Succeeds) (hc : scriptDocument id name chunk ∈ c) :
    (DatabaseManager.destroyIn d (.script (readScript id name chunk)) c).1 = true ∧
      Shelves (DatabaseManager.destroyIn d (.script (readScript id name chunk)) c).2.2 (Function.update shelf name none) := by
  have hs := h.storable hc
  have hname : (scriptDocument id name chunk).lookup "name" = some (.utf8 (cString name)) := by
    rw [cString_eq_self hs.noNul]
    rfl
  obtain ⟨before, after, rfl⟩ := List.append_of_mem hc
  have hfields : (AnyObject.script (readScript id name chunk)).fields d.generated = scriptDocument id name chunk := by
    rw [fields_script]
    exact congrArg (scriptDocument id · chunk) (cString_eq_self hs.noNul)
  have hagrees : Agrees (scriptDocument id name chunk) (scriptDocument id name chunk) := by
    simp [Agrees, scriptDocument, lookup_cons_eq]
  have hremoved : removeDocuments (scriptDocument id name chunk) (before ++ scriptDocument id name chunk :: after) =
      before ++ after := by
    refine removeDocuments_of_split hagrees fun e he ha => ?_
    exact (uniqueIn_middle.mp h.unique.names).1 _ rfl e he (ha ("name", .utf8 name) (by simp [scriptDocument]))
  have hfound : ∃ e ∈ before ++ scriptDocument id name chunk :: after,
      e.lookup "name" = some (.utf8 (cString (AnyObject.script (readScript id name chunk)).name)) :=
    ⟨_, mem_middle.mpr (.inl rfl), hname⟩
  rw [destroyIn_eq hd.2.1 hd.2.2, if_pos hfound, hfields, hremoved]
  exact ⟨rfl, h.remove⟩

end Shelves

/-! ### Requests -/

/-- The manager and its collection. -/
structure Catalogue where
  manager : DatabaseManager
  collection : Collection

namespace Catalogue

/-- A request, with a driver for each call of the manager. -/
inductive Request
  | add (d : Driver) (name chunk : Bytes)
  | look (d : Driver) (name : Bytes)
  | replace (r w : Driver) (name chunk : Bytes)
  | rename (r w : Driver) (name name' : Bytes)
  | remove (r w : Driver) (name : Bytes)
  | list (d : Driver)

inductive Answer
  | stored (ok : Bool)
  | missing
  | found (chunk : Bytes)
  | listed (chunks : List (Bytes × Bytes))
  | exception (e : DatabaseException)

/-- The answer of `create`, `update` or `destroy`. -/
def answer (result : Except DatabaseException (Bool × AnyObject × Collection) × DatabaseManager) (s : Catalogue) :
    Answer × Catalogue :=
  match result.1 with
  | .error e => (.exception e, { s with manager := result.2 })
  | .ok (ok, _, c) => (.stored ok, { manager := result.2, collection := c })

/-- `read`, and then `use` with the script if there is one. -/
def withScript (bcon : Bytes → Bson) (d : Driver) (name : Bytes) (use : Script → Catalogue → Answer × Catalogue)
    (s : Catalogue) : Answer × Catalogue :=
  let result := s.manager.read Script bcon d name s.collection
  let s := { s with manager := result.2 }
  match result.1 with
  | .error e => (.exception e, s)
  | .ok none => (.missing, s)
  | .ok (some script) => use script s

def serve (bcon : Bytes → Bson) (s : Catalogue) : Request → Answer × Catalogue
  | .add d name chunk => answer (s.manager.create d (.script (.ofData d.memory name chunk)) s.collection) s
  | .look d name => s.withScript bcon d name fun script s => (.found script.binaryData, s)
  | .replace r w name chunk => s.withScript bcon r name fun script s =>
    answer (s.manager.update w (.script (script.setBinaryData chunk)) s.collection) s
  | .rename r w name name' => s.withScript bcon r name fun script s =>
    answer (s.manager.update w ((AnyObject.script script).setName name') s.collection) s
  | .remove r w name => s.withScript bcon r name fun script s =>
    answer (s.manager.destroy w (.script script) s.collection) s
  | .list d =>
    let result := s.manager.findAll Script d s.collection
    match result.1 with
    | .error e => (.exception e, { s with manager := result.2 })
    | .ok scripts => (.listed (scripts.map fun s => (s.mName, s.binaryData)), { s with manager := result.2 })

/-- The driver calls of the request succeed. -/
def Request.Succeeds : Request → Prop
  | .add d _ _ | .look d _ | .list d => d.Succeeds
  | .replace r w _ _ | .rename r w _ _ | .remove r w _ => r.Succeeds ∧ w.Succeeds

/-- The id that is generated for a new script. -/
def Request.generated : Request → Option Oid
  | .add d _ _ => some d.generated
  | _ => none

/-- The names that are looked up. -/
def Request.names : Request → List Bytes
  | .look _ name | .replace _ _ name _ | .rename _ _ name _ | .remove _ _ name => [name]
  | .add _ _ _ | .list _ => []

/-! ### The dictionary -/

/-- What a request does to the map. -/
def shelve (shelf : Shelf) : Request → Shelf
  | .add _ name chunk => if shelf name = none then Function.update shelf name (some chunk) else shelf
  | .replace _ _ name chunk => if shelf name = none then shelf else Function.update shelf name (some chunk)
  | .rename _ _ name name' =>
    match shelf name with
    | none => shelf
    | some chunk => Function.update (Function.update shelf name none) name' (some chunk)
  | .remove _ _ name => Function.update shelf name none
  | .look _ _ | .list _ => shelf

/-- What is stored can be read again, and a name that is given is free. -/
def Allows (shelf : Shelf) : Request → Prop
  | .add _ name chunk => Storable name chunk
  | .replace _ _ _ chunk => chunk ≠ []
  | .rename _ _ name name' => (name' ≠ [] ∧ 0 ∉ name') ∧ Function.update shelf name none name' = none
  | .look _ _ | .remove _ _ _ | .list _ => True

/-- The answer of a dictionary. -/
def Answers (shelf : Shelf) : Request → Answer → Prop
  | .add _ name _, a => a = .stored (shelf name).isNone
  | .look _ name, a => a = (shelf name).elim .missing .found
  | .replace _ _ name _, a | .rename _ _ name _, a | .remove _ _ name, a =>
    a = if shelf name = none then .missing else .stored true
  | .list _, a => ∃ chunks, a = .listed chunks ∧ (chunks.map Prod.fst).Nodup ∧
      ∀ name chunk, (name, chunk) ∈ chunks ↔ shelf name = some chunk

/-! ### One request -/

variable {bcon : Bytes → Bson} {s : Catalogue} {shelf : Shelf} {r : Request}

/-- The state after a request: the collection shelves the map, and only the generated id is new. -/
structure After (s : Catalogue) (generated : Option Oid) (shelf : Shelf) (s' : Catalogue) : Prop where
  shelves : Shelves s'.collection shelf
  ids : ∀ id, some (.oid id) ∈ s'.collection.map (·.lookup "_id") →
    generated = some id ∨ some (.oid id) ∈ s.collection.map (·.lookup "_id")

theorem after_same {s' : Catalogue} (h : Shelves s.collection shelf) (hsame : s'.collection = s.collection) :
    After s none shelf s' := ⟨hsame ▸ h, fun _ hid => .inr (hsame ▸ hid)⟩

/-- A script that is looked up is missing, or is used as it was read. -/
theorem withScript_spec {d : Driver} {name : Bytes} (use : Script → Catalogue → Answer × Catalogue)
    (h : Shelves s.collection shelf) (hd : d.Succeeds) (hbcon : bcon name = bareName name) (hnul : 0 ∉ name) :
    ∃ m, (shelf name = none ∧ s.withScript bcon d name use = (.missing, { s with manager := m })) ∨
      ∃ id chunk, shelf name = some chunk ∧ scriptDocument id name chunk ∈ s.collection ∧
        s.withScript bcon d name use = use (readScript id name chunk) { s with manager := m } := by
  have hcall : (s.manager.read Script bcon d name s.collection).1 = .ok (readIn Script bcon d name s.collection) :=
    withClient_of_connects hd.1 _ _
  refine ⟨(s.manager.read Script bcon d name s.collection).2, ?_⟩
  unfold withScript
  simp only [hcall]
  cases hshelf : shelf name with
  | none =>
    rw [h.readIn_none hd.2.1 hbcon hnul hshelf]
    exact .inl ⟨rfl, rfl⟩
  | some chunk =>
    obtain ⟨id, hc⟩ := (h.holds _ _).mp hshelf
    rw [h.readIn_some hd.2.1 hbcon hc]
    exact .inr ⟨id, chunk, rfl, hc, rfl⟩

/-- What `create`, `update` and `destroy` answer when the client is there. -/
theorem answer_of_ok {result : Except DatabaseException (Bool × AnyObject × Collection) × DatabaseManager}
    {changed : Bool × AnyObject × Collection} (hresult : result.1 = .ok changed) :
    answer result s = (.stored changed.1, { manager := result.2, collection := changed.2.2 }) := by
  unfold answer
  rw [hresult]

/-- A request that reads a script and then changes it: `changed` is what the manager makes of it. -/
theorem withScript_changed {d : Driver} {name : Bytes} {shelf' : Shelf}
    {call : Script → Catalogue → Except DatabaseException (Bool × AnyObject × Collection) × DatabaseManager}
    {changed : Script → Bool × AnyObject × Collection} (h : Shelves s.collection shelf) (hd : d.Succeeds)
    (hbcon : bcon name = bareName name) (hnul : 0 ∉ name) (hmissing : shelf name = none → shelf' = shelf)
    (hcall : ∀ script m, (call script { s with manager := m }).1 = .ok (changed script))
    (hchanged : ∀ id chunk, shelf name = some chunk → scriptDocument id name chunk ∈ s.collection →
      (changed (readScript id name chunk)).1 = true ∧ Shelves (changed (readScript id name chunk)).2.2 shelf' ∧
        (changed (readScript id name chunk)).2.2.map (·.lookup "_id") ⊆ s.collection.map (·.lookup "_id")) :
    let served := s.withScript bcon d name fun script s => answer (call script s) s
    served.1 = (if shelf name = none then .missing else .stored true) ∧ After s none shelf' served.2 := by
  intro served
  obtain ⟨m, ⟨hnone, hserved⟩ | ⟨id, chunk, hsome, hc, hserved⟩⟩ :=
    withScript_spec (fun script s => answer (call script s) s) h hd hbcon hnul
  · have hsame : served = (.missing, { s with manager := m }) := hserved
    rw [hsame, if_pos hnone, hmissing hnone]
    exact ⟨rfl, after_same h rfl⟩
  · obtain ⟨htrue, hshelves, hids⟩ := hchanged id chunk hsome hc
    have hanswer : served = answer (call (readScript id name chunk) { s with manager := m }) { s with manager := m } := hserved
    rw [hanswer, answer_of_ok (hcall _ m), htrue, if_neg (by rw [hsome]; exact Option.some_ne_none chunk)]
    exact ⟨rfl, hshelves, fun _ hid => .inr (hids hid)⟩

theorem ids_destroyIn (d : Driver) (o : AnyObject) (c : Collection) :
    (destroyIn d o c).2.2.map (·.lookup "_id") ⊆ c.map (·.lookup "_id") := by
  rcases destroyIn_cases d o c with hc | hc
  · rw [hc]
    exact List.Subset.refl _
  · rw [hc]
    exact List.map_subset _ List.filter_sublist.subset

theorem ids_updateIn (d : Driver) (o : AnyObject) (c : Collection) :
    (updateIn d o c).2.2.map (·.lookup "_id") ⊆ c.map (·.lookup "_id") := by
  rw [map_id_updateIn]
  exact List.Subset.refl _

/-- A new script is stored when its name is free. -/
theorem serve_add {d : Driver} {name chunk : Bytes} (h : Shelves s.collection shelf) (hd : d.Succeeds)
    (hs : Storable name chunk) (hfresh : some (.oid d.generated) ∉ s.collection.map (·.lookup "_id")) :
    (s.serve bcon (.add d name chunk)).1 = .stored (shelf name).isNone ∧
      After s (some d.generated) (shelve shelf (.add d name chunk)) (s.serve bcon (.add d name chunk)).2 := by
  have hcall : (s.manager.create d (.script (.ofData d.memory name chunk)) s.collection).1 =
      .ok (createIn d (.script (.ofData d.memory name chunk)) s.collection) := withClient_of_connects hd.1 _ _
  rw [serve, answer_of_ok hcall, shelve]
  cases hshelf : shelf name with
  | none =>
    have hnew : ∀ e ∈ s.collection, e.lookup "_id" ≠ some (.oid d.generated) :=
      fun e he hid => hfresh (hid ▸ List.mem_map_of_mem he)
    obtain ⟨hret, hc⟩ := h.createIn hd hs hshelf hnew d.memory
    rw [hret, hc, if_pos rfl]
    refine ⟨rfl, h.add hs hshelf hnew, fun id hid => ?_⟩
    rw [List.map_append, List.mem_append] at hid
    rcases hid with hid | hid
    · exact .inr hid
    · left
      simpa [scriptDocument, lookup_cons_eq, eq_comm] using hid
  | some old =>
    obtain ⟨id, hc⟩ := (h.holds _ _).mp hshelf
    have hfound : findName d name s.collection = true := by
      refine (findName_iff hd.2.1).mpr ⟨_, hc, ?_⟩
      rw [cString_eq_self hs.noNul]
      rfl
    have hsame : createIn d (.script (.ofData d.memory name chunk)) s.collection =
        (false, .script (.ofData d.memory name chunk), s.collection) := if_pos hfound
    rw [hsame, if_neg (Option.some_ne_none old)]
    exact ⟨rfl, h, fun _ hid => .inr hid⟩

theorem serve_list {d : Driver} (h : Shelves s.collection shelf) (hd : d.Succeeds) :
    Answers shelf (.list d) (s.serve bcon (.list d)).1 ∧ (s.serve bcon (.list d)).2.collection = s.collection := by
  have hcall : (s.manager.findAll Script d s.collection).1 = .ok (findAllIn Script d s.collection) :=
    withClient_of_connects hd.1 _ _
  rw [serve]
  simp only [hcall]
  refine ⟨⟨_, rfl, ?_, fun name chunk => ?_⟩, trivial⟩
  · rw [List.map_map]
    exact h.nodup_findAllIn hd.2.1
  · rw [← h.findAllIn_iff hd.2.1, List.mem_map]
    simp only [Prod.mk.injEq]

theorem serve_spec (h : Shelves s.collection shelf) (hr : r.Succeeds) (hallows : Allows shelf r)
    (hnames : ∀ name ∈ r.names, bcon name = bareName name ∧ 0 ∉ name)
    (hfresh : ∀ id ∈ r.generated, some (.oid id) ∉ s.collection.map (·.lookup "_id")) :
    Answers shelf r (s.serve bcon r).1 ∧ After s r.generated (shelve shelf r) (s.serve bcon r).2 := by
  cases r with
  | add d name chunk => exact serve_add h hr hallows (hfresh _ rfl)
  | look d name =>
    obtain ⟨hbcon, hnul⟩ := hnames name (List.mem_singleton_self _)
    obtain ⟨m, ⟨hnone, hcall⟩ | ⟨id, chunk, hsome, -, hcall⟩⟩ :=
      withScript_spec (fun script s => (.found script.binaryData, s)) h hr hbcon hnul
    · rw [serve, hcall, Answers, hnone]
      exact ⟨rfl, after_same h rfl⟩
    · rw [serve, hcall, Answers, hsome]
      exact ⟨rfl, after_same h rfl⟩
  | replace r w name chunk =>
    obtain ⟨hbcon, hnul⟩ := hnames name (List.mem_singleton_self _)
    refine withScript_changed h hr.1 hbcon hnul (fun hnone => if_pos hnone)
      (fun script m => withClient_of_connects hr.2.1 (updateIn w (.script (script.setBinaryData chunk)) s.collection) m) ?_
    intro id old hsome hc
    rw [shelve, if_neg (by rw [hsome]; exact Option.some_ne_none old)]
    obtain ⟨htrue, hshelves⟩ := h.updateIn hr.2 hc hallows
    exact ⟨htrue, hshelves, ids_updateIn _ _ _⟩
  | rename r w name name' =>
    obtain ⟨hbcon, hnul⟩ := hnames name (List.mem_singleton_self _)
    refine withScript_changed h hr.1 hbcon hnul (fun hnone => by rw [shelve, hnone])
      (fun script m => withClient_of_connects hr.2.1 (updateIn w ((AnyObject.script script).setName name') s.collection) m) ?_
    intro id old hsome hc
    have hs : Storable name' old := ⟨hallows.1.1, hallows.1.2, (h.storable hc).chunk_ne⟩
    obtain ⟨htrue, hshelves⟩ := h.updateIn_setName hr.2 hc hs hallows.2
    rw [shelve, hsome]
    exact ⟨htrue, hshelves, ids_updateIn _ _ _⟩
  | remove r w name =>
    obtain ⟨hbcon, hnul⟩ := hnames name (List.mem_singleton_self _)
    refine withScript_changed h hr.1 hbcon hnul (fun hnone => by rw [shelve, ← hnone, Function.update_eq_self])
      (fun script m => withClient_of_connects hr.2.1 (destroyIn w (.script script) s.collection) m) ?_
    intro id old hsome hc
    obtain ⟨htrue, hshelves⟩ := h.destroyIn hr.2 hc
    exact ⟨htrue, hshelves, ids_destroyIn _ _ _⟩
  | list d =>
    have hlist : Answers shelf (.list d) (s.serve bcon (.list d)).1 ∧ _ := serve_list h hr
    exact ⟨hlist.1, after_same h hlist.2⟩

/-! ### Whole runs -/

/-- The catalogue before the first request. -/
def start (m : DatabaseManager) : Catalogue := { manager := m, collection := [] }

/-- The catalogue beside the dictionary. -/
def step (bcon : Bytes → Bson) (s : Catalogue × Shelf) (r : Request) : Catalogue × Shelf :=
  ((s.1.serve bcon r).2, shelve s.2 r)

/-- In every run of requests the catalogue answers as the dictionary does, and shelves what it holds. -/
theorem serve_refines {s : Catalogue} {shelf : Shelf} {requests : List Request} (h : Shelves s.collection shelf)
    (hsucceed : ∀ r ∈ requests, r.Succeeds) (hallows : StepsMeet shelve Allows shelf requests)
    (hnames : ∀ r ∈ requests, ∀ name ∈ r.names, bcon name = bareName name ∧ 0 ∉ name)
    (hdistinct : (requests.filterMap Request.generated).Nodup)
    (hfree : ∀ id ∈ requests.filterMap Request.generated, some (.oid id) ∉ s.collection.map (·.lookup "_id")) :
    StepsMeet (step bcon) (fun s r => Answers s.2 r (s.1.serve bcon r).1) (s, shelf) requests ∧
      Shelves (run (step bcon) (s, shelf) requests).1.collection (run shelve shelf requests) := by
  induction requests generalizing s shelf with
  | nil => exact ⟨trivial, h⟩
  | cons r requests ih =>
    obtain ⟨hr, hsucceed⟩ := List.forall_mem_cons.mp hsucceed
    obtain ⟨hname, hnames⟩ := List.forall_mem_cons.mp hnames
    have hfresh : ∀ id ∈ r.generated, some (.oid id) ∉ s.collection.map (·.lookup "_id") :=
      fun id hid => hfree id (List.mem_filterMap.mpr ⟨r, .head _, hid⟩)
    obtain ⟨hanswers, hafter⟩ := serve_spec h hr hallows.1 hname hfresh
    have hrest : ∀ id ∈ requests.filterMap Request.generated, r.generated ≠ some id := by
      intro id hid hgenerated
      rw [List.filterMap_cons_some hgenerated, List.nodup_cons] at hdistinct
      exact hdistinct.1 hid
    have htail : (requests.filterMap Request.generated).Nodup :=
      hdistinct.sublist ((List.sublist_cons_self r requests).filterMap _)
    refine (ih hafter.shelves hsucceed hallows.2 hnames htail fun id hid hmem => ?_).imp (fun hmeet => ⟨hanswers, hmeet⟩) id
    rcases hafter.ids id hmem with hnew | hold
    · exact hrest id hid hnew
    · obtain ⟨r', hr', hgenerated⟩ := List.mem_filterMap.mp hid
      exact hfree id (List.mem_filterMap.mpr ⟨r', .tail _ hr', hgenerated⟩) hold

/-- Requests to an empty collection, whatever their order: the manager is a dictionary. -/
theorem catalogue_is_dictionary {m : DatabaseManager} {requests : List Request} (hsucceed : ∀ r ∈ requests, r.Succeeds)
    (hallows : StepsMeet shelve Allows (fun _ => none) requests)
    (hnames : ∀ r ∈ requests, ∀ name ∈ r.names, bcon name = bareName name ∧ 0 ∉ name)
    (hdistinct : (requests.filterMap Request.generated).Nodup) :
    StepsMeet (step bcon) (fun s r => Answers s.2 r (s.1.serve bcon r).1) (start m, fun _ => none) requests ∧
      Shelves (run (step bcon) (start m, fun _ => none) requests).1.collection (run shelve (fun _ => none) requests) :=
  serve_refines shelves_nil hsucceed hallows hnames hdistinct fun _ _ => List.not_mem_nil

/-- A script is stored, renamed, changed and taken away. -/
def storedAndRemoved : List Request :=
  [.add (.working 1) [0x61] [1], .rename (.working 2) (.working 3) [0x61] [0x62], .look (.working 4) [0x61],
    .replace (.working 5) (.working 6) [0x62] [2], .list (.working 7), .remove (.working 8) (.working 9) [0x62]]

theorem catalogue_is_dictionary_storedAndRemoved :
    StepsMeet (step bareName) (fun s r => Answers s.2 r (s.1.serve bareName r).1)
        (start ⟨false, none, none⟩, fun _ => none) storedAndRemoved ∧
      Shelves (run (step bareName) (start ⟨false, none, none⟩, fun _ => none) storedAndRemoved).1.collection
        (run shelve (fun _ => none) storedAndRemoved) := by
  refine catalogue_is_dictionary ?_ ?_ ?_ (by decide)
  · simp [storedAndRemoved, Request.Succeeds, Driver.Succeeds, Driver.Connects, Driver.working]
  · exact ⟨⟨by decide, by decide, by decide⟩, ⟨⟨by decide, by decide⟩, rfl⟩, trivial, List.cons_ne_nil 2 [], trivial,
      trivial, trivial⟩
  · simp [storedAndRemoved, Request.names]

end Catalogue

end MetaEditor
