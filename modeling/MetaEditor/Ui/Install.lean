import MetaEditor.Lua.RoundTrip
import MetaEditor.Ui.MainWindow

/-!
# Installed scripts

Whatever the order of first installations, refused and accepted updates and failed compilations, the
knowledge base is the shelf on which each accepted installation has put its chunk under its file name, in
place of the one before.
-/

namespace MetaEditor

open Lib DatabaseManager LuaProcessor

namespace Install

def name (i : Install) : Bytes := fileName i.path.bytes

/-- A file was chosen, and it is not there yet or the user has agreed to replace it. -/
def Agreed (i : Install) (shelf : Shelf) : Prop := i.path.bytes ≠ [] ∧ (shelf i.name = none ∨ i.reply = .yes)

instance (i : Install) (shelf : Shelf) : Decidable (i.Agreed shelf) := inferInstanceAs (Decidable (_ ∧ _))

/-- An installation is accepted when it is agreed to and the file compiles. Its chunk is then the last one
under the file name. -/
def shelve (L : Layout) (shelf : Shelf) (i : Install) : Shelf :=
  match i.loaded with
  | .error _ => shelf
  | .ok f => if i.Agreed shelf then Function.update shelf i.name (some (chunkOf L f)) else shelf

/-- The driver calls of the installation succeed. -/
def Succeeds (i : Install) : Prop := i.readDriver.Succeeds ∧ i.writeDriver.Succeeds

/-- The id that `bson_oid_init` generates if the installation creates a script. -/
def generated (i : Install) : Oid := i.writeDriver.generated

theorem shelve_of_not_agreed {L : Layout} {shelf : Shelf} {i : Install} (h : ¬ i.Agreed shelf) :
    i.shelve L shelf = shelf := by
  unfold shelve
  cases i.loaded with
  | error message => rfl
  | ok f => exact if_neg h

theorem shelve_of_error {L : Layout} {shelf : Shelf} {i : Install} {message : Bytes} (h : i.loaded = .error message) :
    i.shelve L shelf = shelf := by
  unfold shelve
  rw [h]

theorem shelve_of_ok {L : Layout} {shelf : Shelf} {i : Install} {f : Proto} (hagreed : i.Agreed shelf)
    (h : i.loaded = .ok f) : i.shelve L shelf = Function.update shelf i.name (some (chunkOf L f)) := by
  unfold shelve
  rw [h]
  exact if_pos hagreed

/-- The user agreed exactly when not asked about a script that is there, or answering that it is to be replaced. -/
theorem agreed_iff {shelf : Shelf} {i : Install} (hchosen : i.path.bytes ≠ []) {there : Prop}
    (hthere : there ↔ shelf i.name ≠ none) : i.Agreed shelf ↔ ¬(there ∧ i.reply = .no) := by
  constructor
  · rintro ⟨-, hnone | hyes⟩ ⟨hkept, hno⟩
    · exact hthere.mp hkept hnone
    · rw [hyes] at hno
      cases hno
  · intro hasked
    refine ⟨hchosen, ?_⟩
    by_cases hnone : shelf i.name = none
    · exact .inl hnone
    · right
      cases hreply : i.reply with
      | yes => rfl
      | no => exact absurd ⟨hthere.mpr hnone, hreply⟩ hasked

end Install

namespace MainWindow

variable {L : Layout} {bcon : Bytes → Bson} {w : MainWindow} {shelf : Shelf} {i : Install}

/-- Every id was there before or is the generated one. -/
def IdsFrom (c c' : Collection) (generated : Oid) : Prop :=
  ∀ id, some (.oid id) ∈ c'.map (·.lookup "_id") → id = generated ∨ some (.oid id) ∈ c.map (·.lookup "_id")

theorem idsFrom_self (c : Collection) (generated : Oid) : IdsFrom c c generated := fun _ hid => .inr hid

/-- A script that was read takes the new chunk. -/
theorem storeScript_update (w : MainWindow) (h : Shelves w.bco shelf) (hd : i.writeDriver.Succeeds) {id : Oid} {name chunk : Bytes}
    (hc : scriptDocument id name chunk ∈ w.bco) (hne : w.mLuaProcessor.data ≠ []) :
    (storeScript i name (some (readScript id name chunk)) w).1 = .updated ∧
      Shelves (storeScript i name (some (readScript id name chunk)) w).2.bco
        (Function.update shelf name (some w.mLuaProcessor.data)) ∧
      IdsFrom w.bco (storeScript i name (some (readScript id name chunk)) w).2.bco i.generated := by
  have hdata : w.mLuaProcessor.data.take w.mLuaProcessor.dataSize = w.mLuaProcessor.data := List.take_length
  have hscript : (readScript id name chunk).setBinaryData w.mLuaProcessor.data =
      readScript id name w.mLuaProcessor.data := rfl
  have hcall : (w.database.update i.writeDriver (.script (readScript id name w.mLuaProcessor.data)) w.bco).1 =
      .ok (updateIn i.writeDriver (.script (readScript id name w.mLuaProcessor.data)) w.bco) :=
    withClient_of_connects hd.1 _ _
  obtain ⟨hret, hshelves⟩ := h.updateIn hd hc hne
  unfold storeScript
  simp only [hdata, hscript, hcall, hret, Bool.true_eq_false, if_false, true_and]
  refine ⟨hshelves, fun id' hid' => .inr ?_⟩
  rwa [map_id_updateIn] at hid'

/-- A new script is created. -/
theorem storeScript_create (w : MainWindow) (h : Shelves w.bco shelf) (hd : i.writeDriver.Succeeds) {name : Bytes}
    (hs : Storable name w.mLuaProcessor.data) (hnone : shelf name = none)
    (hfresh : some (.oid i.generated) ∉ w.bco.map (·.lookup "_id")) :
    (storeScript i name none w).1 = .installed ∧
      Shelves (storeScript i name none w).2.bco (Function.update shelf name (some w.mLuaProcessor.data)) ∧
      IdsFrom w.bco (storeScript i name none w).2.bco i.generated := by
  have hdata : w.mLuaProcessor.data.take w.mLuaProcessor.dataSize = w.mLuaProcessor.data := List.take_length
  have hcall : (w.database.create i.writeDriver
        (.script (.ofData i.writeDriver.memory name w.mLuaProcessor.data)) w.bco).1 =
      .ok (createIn i.writeDriver (.script (.ofData i.writeDriver.memory name w.mLuaProcessor.data)) w.bco) :=
    withClient_of_connects hd.1 _ _
  have hnew : ∀ e ∈ w.bco, e.lookup "_id" ≠ some (.oid i.writeDriver.generated) := by
    intro e he hid
    exact hfresh (hid ▸ List.mem_map_of_mem he)
  obtain ⟨hret, hbco⟩ := h.createIn hd hs hnone hnew i.writeDriver.memory
  unfold storeScript
  simp only [hdata, hcall, hret, hbco, Bool.true_eq_false, if_false, true_and]
  refine ⟨h.add hs hnone hnew, fun id' hid' => ?_⟩
  rw [List.map_append, List.mem_append] at hid'
  rcases hid' with hid' | hid'
  · exact .inr hid'
  · left
    simpa [scriptDocument, lookup_cons_eq, Install.generated] using hid'

/-- `read` answers what is on the shelf, and the rest follows from it. -/
theorem installScripts_of_chosen (L : Layout) (bcon : Bytes → Bson) (w : MainWindow) (hr : i.readDriver.Succeeds) (hchosen : i.path.bytes ≠ []) :
    ∃ database, w.installScripts L bcon i =
      compileAndStore L i i.name (readIn Script bcon i.readDriver i.name w.bco) { w with database := database } := by
  have hcall : (w.database.read Script bcon i.readDriver i.name w.bco).1 =
      .ok (readIn Script bcon i.readDriver i.name w.bco) := withClient_of_connects hr.1 _ _
  refine ⟨(w.database.read Script bcon i.readDriver i.name w.bco).2, ?_⟩
  unfold Install.name at hcall ⊢
  unfold installScripts
  simp only [if_neg hchosen, hcall]

/-- From the question on: `script` is what the shelf has under the name. -/
theorem compileAndStore_shelves (w : MainWindow) (h : Shelves w.bco shelf) (hi : i.Succeeds) (hchosen : i.path.bytes ≠ [])
    (hfresh : some (.oid i.generated) ∉ w.bco.map (·.lookup "_id")) {script : Option Script}
    (hscript : (script = none ∧ shelf i.name = none) ∨
      ∃ id chunk, script = some (readScript id i.name chunk) ∧ scriptDocument id i.name chunk ∈ w.bco) :
    Shelves (compileAndStore L i i.name script w).2.bco (i.shelve L shelf) ∧
      IdsFrom w.bco (compileAndStore L i i.name script w).2.bco i.generated := by
  have hthere : script.isSome = true ↔ shelf i.name ≠ none := by
    rcases hscript with ⟨rfl, hnone⟩ | ⟨id, chunk, rfl, hc⟩
    · simp [hnone]
    · simp [(h.holds _ _).mpr ⟨id, hc⟩]
  unfold compileAndStore
  have hagreed := Install.agreed_iff hchosen hthere
  by_cases hkept : script.isSome = true ∧ i.reply = .no
  · rw [if_pos hkept, Install.shelve_of_not_agreed (not_not.mpr hkept ∘ hagreed.mp)]
    exact ⟨h, idsFrom_self _ _⟩
  · rw [if_neg hkept]
    cases hloaded : i.loaded with
    | error message =>
      rw [Install.shelve_of_error hloaded]
      exact ⟨h, idsFrom_self _ _⟩
    | ok f =>
      obtain ⟨hcompiled, hdata⟩ := compileScript_ok L f w.mLuaProcessor
      rw [Install.shelve_of_ok (hagreed.mpr hkept) hloaded]
      simp only [hcompiled, if_true]
      have hbuffer : ((w.mLuaProcessor.compileScript L (.ok f)).2.doBuffer i.ran).data = chunkOf L f := by
        rw [data, mData_doBuffer, hdata]
      have hne := hbuffer.symm ▸ chunkOf_ne_nil L f
      rcases hscript with ⟨rfl, hnone⟩ | ⟨id, chunk, rfl, hc⟩
      · have hs : Storable i.name (chunkOf L f) :=
          ⟨i.path.fileName_ne_nil hchosen, i.path.zero_notMem_fileName, chunkOf_ne_nil L f⟩
        have hstore := storeScript_create
          { w with mLuaProcessor := (w.mLuaProcessor.compileScript L (.ok f)).2.doBuffer i.ran } h hi.2
          (hbuffer.symm ▸ hs) hnone hfresh
        exact hbuffer ▸ hstore.2
      · have hstore := storeScript_update
          { w with mLuaProcessor := (w.mLuaProcessor.compileScript L (.ok f)).2.doBuffer i.ran } h hi.2 hc hne
        exact hbuffer ▸ hstore.2

/-- One installation: the collection follows the shelf. -/
theorem installScripts_shelves (h : Shelves w.bco shelf) (hi : i.Succeeds) (hbcon : bcon i.name = bareName i.name)
    (hfresh : some (.oid i.generated) ∉ w.bco.map (·.lookup "_id")) :
    Shelves (w.installScripts L bcon i).2.bco (i.shelve L shelf) ∧
      IdsFrom w.bco (w.installScripts L bcon i).2.bco i.generated := by
  by_cases hchosen : i.path.bytes = []
  · have hcancelled : w.installScripts L bcon i = (.cancelled, w) := by
      unfold installScripts
      exact if_pos hchosen
    rw [hcancelled, Install.shelve_of_not_agreed fun hagreed => hagreed.1 hchosen]
    exact ⟨h, idsFrom_self _ _⟩
  · obtain ⟨database, hinstall⟩ := installScripts_of_chosen L bcon w hi.1 hchosen
    rw [hinstall]
    refine compileAndStore_shelves { w with database := database } h hi hchosen hfresh ?_
    cases hshelf : shelf i.name with
    | none => exact .inl ⟨h.readIn_none hi.1.2.1 hbcon i.path.zero_notMem_fileName hshelf, rfl⟩
    | some chunk =>
      obtain ⟨id, hc⟩ := (h.holds _ _).mp hshelf
      exact .inr ⟨id, chunk, h.readIn_some hi.1.2.1 hbcon hc, hc⟩

/-- The window after a series of installations. -/
def installAll (L : Layout) (bcon : Bytes → Bson) (w : MainWindow) (installs : List Install) : MainWindow :=
  run (fun w i => (w.installScripts L bcon i).2) w installs

/-- The shelf after a series of installations. -/
def shelveAll (L : Layout) (shelf : Shelf) (installs : List Install) : Shelf := run (Install.shelve L) shelf installs

/-- A series of installations: the ids that are still to be generated stay free. -/
theorem installAll_shelves {installs : List Install} (h : Shelves w.bco shelf)
    (hsucceed : ∀ i ∈ installs, i.Succeeds) (hbcon : ∀ i ∈ installs, bcon i.name = bareName i.name)
    (hdistinct : (installs.map Install.generated).Nodup)
    (hfree : ∀ i ∈ installs, some (.oid i.generated) ∉ w.bco.map (·.lookup "_id")) :
    Shelves (installAll L bcon w installs).bco (shelveAll L shelf installs) := by
  induction installs generalizing w shelf with
  | nil => exact h
  | cons i installs ih =>
    obtain ⟨hi, hsucceed⟩ := List.forall_mem_cons.mp hsucceed
    obtain ⟨hbi, hbcon⟩ := List.forall_mem_cons.mp hbcon
    obtain ⟨hfi, hfree⟩ := List.forall_mem_cons.mp hfree
    rw [List.map_cons, List.nodup_cons] at hdistinct
    obtain ⟨hstep, hids⟩ := installScripts_shelves (L := L) h hi hbi hfi
    refine ih hstep hsucceed hbcon hdistinct.2 fun j hj hid => ?_
    rcases hids _ hid with hsame | hold
    · exact hdistinct.1 (hsame ▸ List.mem_map_of_mem hj)
    · exact hfree j hj hold

/-- Last install wins: `findAll` gives one script for each name that was installed, with the chunk of the
last accepted installation. These chunks, one after the other, are what `loadAllScripts` makes the Lua processor
run, and the selected one is what `loadScript` makes it run. Of `BCON_NEW` it is assumed that no file name of the run is a
token to it, also none that begins with a brace or a bracket. -/
theorem last_install_wins {w : MainWindow} (hempty : w.bco = []) {installs : List Install}
    (hsucceed : ∀ i ∈ installs, i.Succeeds) (hdistinct : (installs.map Install.generated).Nodup)
    (hbcon : ∀ i ∈ installs, bcon i.name = bareName i.name) {d : Driver} (hd : d.Succeeds) :
    let w' := installAll L bcon w installs
    let shelf := shelveAll L (fun _ => none) installs
    ∃ scripts, (w'.database.findAll Script d w'.bco).1 = .ok scripts ∧
      (scripts.map (·.mName)).Nodup ∧
      (∀ name chunk, (∃ s ∈ scripts, s.mName = name ∧ s.binaryData = chunk ∧ s.size = chunk.length) ↔
        shelf name = some chunk) ∧
      (∀ ran, w'.loadAllScripts d ran = some { w' with
        database := (w'.database.findAll Script d w'.bco).2
        mLuaProcessor := w'.mLuaProcessor.doBuffers (runs ran scripts) }) ∧
      ∀ ran selected, w'.loadScript d ran selected = some { w' with
        database := (w'.database.findAll Script d w'.bco).2
        mLuaProcessor := w'.mLuaProcessor.doBuffers (runs ran (selected.bind (scripts[·]?)).toList) } := by
  intro w' shelf
  have h : Shelves w'.bco shelf := by
    refine installAll_shelves ?_ hsucceed hbcon hdistinct ?_
    · rw [hempty]
      exact shelves_nil
    · rw [hempty]
      exact fun _ _ => List.not_mem_nil
  have hcall : (w'.database.findAll Script d w'.bco).1 = .ok (findAllIn Script d w'.bco) := withClient_of_connects hd.1 _ _
  have hscripts := h.findAllIn_iff (d := d) hd.2.1
  refine ⟨findAllIn Script d w'.bco, hcall, h.nodup_findAllIn hd.2.1, fun name chunk => ?_,
    loadAllScripts_of_found hcall, loadScript_of_found hcall⟩
  rw [← hscripts]
  constructor
  · rintro ⟨s, hs, hname, hchunk, -⟩
    exact ⟨s, hs, hname, hchunk⟩
  · rintro ⟨s, hs, hname, rfl⟩
    exact ⟨s, hs, hname, rfl, rfl⟩

def emptyWindow : MainWindow :=
  { database := ⟨false, none, none⟩, bco := []
    mLuaProcessor := ⟨[], [], { mWriter := writer, mData := [], mStrip := false, mStatus := 0 }⟩ }

/-- The path `/a.lua`. -/
def pathA : ScriptPath :=
  { bytes := 0x2F :: 0x61 :: luaSuffix, noNul := by decide, lua := .inr ⟨[0x2F, 0x61], rfl⟩ }

def installA (n : Nat) (reply : Reply) (f : Proto) : Install :=
  { path := pathA, reply := reply, loaded := .ok f, ran := .ok [], readDriver := .working n, writeDriver := .working n }

/-- A script is installed, updated, and not updated again. -/
def reinstalled : List Install :=
  [installA 1 .yes innerProto, installA 2 .yes outerProto, installA 3 .no innerProto]

theorem last_install_wins_reinstalled :
    let w' := installAll layout64 bareName emptyWindow reinstalled
    ∃ scripts, (w'.database.findAll Script (.working 4) w'.bco).1 = .ok scripts ∧
      ∃ s ∈ scripts, s.mName = 0x61 :: luaSuffix ∧ s.binaryData = chunkOf layout64 outerProto := by
  intro w'
  obtain ⟨scripts, hcall, -, hscripts, -⟩ := @last_install_wins layout64 bareName emptyWindow rfl reinstalled
    (by simp [reinstalled, installA, Install.Succeeds, Driver.Succeeds, Driver.Connects, Driver.working]) (by decide) (fun _ _ => rfl)
    (.working 4) (by decide)
  have hshelf : shelveAll layout64 (fun _ => none) reinstalled (0x61 :: luaSuffix) = some (chunkOf layout64 outerProto) := rfl
  obtain ⟨s, hs, hname, hchunk, -⟩ := (hscripts _ _).mpr hshelf
  exact ⟨scripts, hcall, s, hs, hname, hchunk⟩

end MainWindow

end MetaEditor
