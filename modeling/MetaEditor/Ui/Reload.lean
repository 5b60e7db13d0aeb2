import MetaEditor.Lua.Chunks
import MetaEditor.Ui.Install

/-!
# Scripts after a restart

What was compiled when a script was installed goes through the dumper, the database and the loader of the Lua
library before it runs again. The shelf of chunks is the image of a shelf of functions, so a window that is opened
on the same collection runs, one for each name, chunks from which the stripped function of the last accepted
installation is loaded.
-/

namespace MetaEditor

open Lib DatabaseManager LuaProcessor Undump

/-- A shelf with the functions themselves. -/
abbrev FunctionShelf := Bytes → Option Proto

/-- The chunks of the functions. -/
def FunctionShelf.chunks (L : Layout) (functions : FunctionShelf) : Shelf := fun name => (functions name).map (chunkOf L)

namespace Install

/-- An accepted installation puts its function under the file name. -/
def keep (functions : FunctionShelf) (i : Install) : FunctionShelf :=
  match i.loaded with
  | .error _ => functions
  | .ok f =>
    if i.path.bytes ≠ [] ∧ (functions i.name = none ∨ i.reply = .yes) then Function.update functions i.name (some f)
    else functions

def keepAll (functions : FunctionShelf) (installs : List Install) : FunctionShelf := run keep functions installs

variable {L : Layout} {i : Install}

/-- What is compiled fits the layout. -/
def Fits (L : Layout) (i : Install) : Prop := ∀ f, i.loaded = .ok f → f.InRange L

theorem agreed_chunks (functions : FunctionShelf) :
    i.Agreed (functions.chunks L) ↔ i.path.bytes ≠ [] ∧ (functions i.name = none ∨ i.reply = .yes) := by
  unfold Agreed FunctionShelf.chunks
  rw [Option.map_eq_none_iff]

/-- One installation on both shelves. -/
theorem shelve_chunks (functions : FunctionShelf) :
    i.shelve L (functions.chunks L) = FunctionShelf.chunks L (keep functions i) := by
  unfold shelve keep
  cases i.loaded with
  | error message => rfl
  | ok f =>
    simp only [agreed_chunks]
    split_ifs
    · funext name
      by_cases hname : name = i.name
      · rw [hname, Function.update_self, FunctionShelf.chunks, Function.update_self]
        rfl
      · rw [Function.update_of_ne hname, FunctionShelf.chunks, FunctionShelf.chunks, Function.update_of_ne hname]
    · rfl

theorem shelveAll_chunks (functions : FunctionShelf) (installs : List Install) :
    MainWindow.shelveAll L (functions.chunks L) installs = FunctionShelf.chunks L (keepAll functions installs) := by
  induction installs generalizing functions with
  | nil => rfl
  | cons i installs ih =>
    show MainWindow.shelveAll L (i.shelve L (functions.chunks L)) installs = _
    rw [shelve_chunks]
    exact ih (keep functions i)

/-- Only functions that were installed are on the shelf. -/
theorem inRange_keepAll {functions : FunctionShelf} {installs : List Install} (hfits : ∀ i ∈ installs, i.Fits L)
    (hfunctions : ∀ name f, functions name = some f → f.InRange L) :
    ∀ name f, keepAll functions installs name = some f → f.InRange L := by
  induction installs generalizing functions with
  | nil => exact hfunctions
  | cons i installs ih =>
    obtain ⟨hi, hfits⟩ := List.forall_mem_cons.mp hfits
    refine ih hfits fun name f h => ?_
    unfold keep at h
    cases hloaded : i.loaded with
    | error message =>
      rw [hloaded] at h
      exact hfunctions name f h
    | ok g =>
      simp only [hloaded] at h
      split_ifs at h
      · by_cases hname : name = i.name
        · rw [hname, Function.update_self] at h
          exact hi f (hloaded.trans (congrArg Except.ok (Option.some.inj h)))
        · rw [Function.update_of_ne hname] at h
          exact hfunctions name f h
      · exact hfunctions name f h

end Install

namespace MainWindow

variable {L : Layout} {bcon : Bytes → Bson}

/-- A window opened on the collection runs a chunk for each name that was installed, from which the Lua library loads
the function that was installed last, stripped. -/
theorem loadAllScripts_installed {w w' : MainWindow} (hempty : w.bco = []) {installs : List Install}
    (hsucceed : ∀ i ∈ installs, i.Succeeds) (hdistinct : (installs.map Install.generated).Nodup)
    (hbcon : ∀ i ∈ installs, bcon i.name = bareName i.name) (hfits : ∀ i ∈ installs, i.Fits L)
    (hbco : w'.bco = (installAll L bcon w installs).bco) {d : Driver} (hd : d.Succeeds) (ran : Runs) :
    ∃ scripts : List Script,
      w'.loadAllScripts d ran = some { w' with
        database := (w'.database.findAll Script d w'.bco).2
        mLuaProcessor := w'.mLuaProcessor.doBuffers (runs ran scripts) } ∧
      (scripts.map (·.mName)).Nodup ∧
      (∀ name, name ∈ scripts.map (·.mName) ↔ (Install.keepAll (fun _ => none) installs name).isSome) ∧
      ∀ s ∈ scripts, ∃ f, Install.keepAll (fun _ => none) installs s.mName = some f ∧
        ∀ name, loadChunk L name s.binaryData = .ok (f.stripped, []) := by
  have hshelf : Shelves w'.bco (FunctionShelf.chunks L (Install.keepAll (fun _ => none) installs)) := by
    rw [hbco, ← Install.shelveAll_chunks]
    refine installAll_shelves ?_ hsucceed hbcon hdistinct fun i _ => ?_
    · rw [hempty]
      exact shelves_nil
    · rw [hempty]
      exact List.not_mem_nil
  have hcall : (w'.database.findAll Script d w'.bco).1 = .ok (findAllIn Script d w'.bco) := withClient_of_connects hd.1 _ _
  have hscripts := hshelf.findAllIn_iff (d := d) hd.2.1
  have hkept : ∀ s ∈ findAllIn Script d w'.bco, ∃ f, Install.keepAll (fun _ => none) installs s.mName = some f ∧
      chunkOf L f = s.binaryData := by
    intro s hs
    exact Option.map_eq_some_iff.mp ((hscripts s.mName s.binaryData).mp ⟨s, hs, rfl, rfl⟩)
  refine ⟨findAllIn Script d w'.bco, loadAllScripts_of_found hcall ran, hshelf.nodup_findAllIn hd.2.1, fun name => ?_, ?_⟩
  · rw [List.mem_map]
    constructor
    · rintro ⟨s, hs, rfl⟩
      obtain ⟨f, hf, -⟩ := hkept s hs
      rw [hf]
      rfl
    · intro hsome
      obtain ⟨f, hf⟩ := Option.isSome_iff_exists.mp hsome
      obtain ⟨s, hs, hname, -⟩ := (hscripts name (chunkOf L f)).mpr (by rw [FunctionShelf.chunks, hf]; rfl)
      exact ⟨s, hs, hname⟩
  · intro s hs
    obtain ⟨f, hf, hdata⟩ := hkept s hs
    refine ⟨f, hf, fun name => ?_⟩
    have hrange := Install.inRange_keepAll hfits (by simp) s.mName f hf
    have hcompiled : s.binaryData = compiled L true f ++ [] := hdata.symm.trans (List.append_nil _).symm
    rw [hcompiled]
    exact loadChunk_compiled hrange true name []

theorem loadAllScripts_installed_reinstalled :
    ∃ scripts : List Script,
      (MainWindow.loadAllScripts (.working 4) (fun _ _ => .ok [])
        { emptyWindow with bco := (installAll layout64 bareName emptyWindow reinstalled).bco }).isSome ∧
      (scripts.map (·.mName)).Nodup ∧
      (∀ name, name ∈ scripts.map (·.mName) ↔ (Install.keepAll (fun _ => none) reinstalled name).isSome) ∧
      ∀ s ∈ scripts, ∃ f, Install.keepAll (fun _ => none) reinstalled s.mName = some f ∧
        ∀ name, loadChunk layout64 name s.binaryData = .ok (f.stripped, []) := by
  have hfits : ∀ i ∈ reinstalled, i.Fits layout64 := by
    have hinstall : ∀ n reply f, f.InRange layout64 → (installA n reply f).Fits layout64 := by
      rintro n reply f hf g hg
      cases hg
      exact hf
    refine List.forall_mem_cons.mpr ⟨hinstall 1 .yes _ innerProto_inRange, ?_⟩
    refine List.forall_mem_cons.mpr ⟨hinstall 2 .yes _ outerProto_inRange, ?_⟩
    exact List.forall_mem_singleton.mpr (hinstall 3 .no _ innerProto_inRange)
  have hsucceed : ∀ i ∈ reinstalled, i.Succeeds := by
    simp [reinstalled, installA, Install.Succeeds, Driver.Succeeds, Driver.Connects, Driver.working]
  have hbco : ({ emptyWindow with bco := (installAll layout64 bareName emptyWindow reinstalled).bco } : MainWindow).bco =
      (installAll layout64 bareName emptyWindow reinstalled).bco := by
    simp only
  obtain ⟨scripts, hload, hscripts⟩ := @loadAllScripts_installed layout64 bareName emptyWindow _
    (by simp only [emptyWindow]) reinstalled hsucceed (by decide) (fun _ _ => rfl) hfits hbco (.working 4) (by decide)
    fun _ _ => .ok []
  exact ⟨scripts, Option.isSome_iff_exists.mpr ⟨_, hload⟩, hscripts⟩

end MainWindow

end MetaEditor
