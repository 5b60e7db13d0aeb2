import MetaEditor.DAO.Shelf
import MetaEditor.Lua.Buffer

/-!
# The main window

The slots of `MainWindow` for the scripts of the knowledge base, the collection `BCO`: `installScripts`
compiles a file and stores it under its name, `loadScript` and `loadAllScripts` hand stored scripts to the
Lua processor. What the user chooses and answers is given with each call.
-/

namespace MetaEditor

open Lib DatabaseManager

/-- `".lua"`. -/
def luaSuffix : Bytes := [0x2E, 0x6C, 0x75, 0x61]

/-- What `getOpenFileName` gives with the filter `*.lua`: a path, which has no NUL, or nothing if the
dialog was cancelled. -/
structure ScriptPath where
  bytes : Bytes
  noNul : 0 ∉ bytes
  lua : bytes = [] ∨ luaSuffix <:+ bytes

inductive Reply
  | yes
  | no
  deriving DecidableEq

/-- One click on "install scripts". -/
structure Install where
  path : ScriptPath
  /-- The answer to "Script informado já existe no banco de dados. Deseja atualizá-lo?". -/
  reply : Reply
  /-- What `luaL_loadfile` reads from the file. -/
  loaded : Except Bytes Proto
  /-- What the chunk does when `doBuffer` runs it. -/
  ran : Except Bytes (List LuaValue)
  readDriver : Driver
  writeDriver : Driver

/-- How `installScripts` ends. -/
inductive Outcome
  /-- No file was chosen. -/
  | cancelled
  /-- The answer was no. -/
  | kept
  /-- "Não foi possível atualizar o script no banco de dados." -/
  | updateFailed
  /-- "Script atualizado com sucesso." -/
  | updated
  /-- "Não foi possível salvar script no banco de dados." -/
  | createFailed
  /-- "Script instalado com sucesso." -/
  | installed
  /-- "Erro ao compilar script." -/
  | compileFailed
  | exception (e : DatabaseException)
  deriving DecidableEq

structure MainWindow where
  database : DatabaseManager
  /-- The collection `BCO`. -/
  bco : Collection
  mLuaProcessor : LuaProcessor

/-- `binaryData()` and `size()`: the data of a `std::string`, with a NUL behind it. -/
def Script.buffer (s : Script) : RawBuffer :=
  { memory := s.binaryData ++ [0], size := s.size, size_le := (List.prefix_append s.binaryData [0]).length_le }

/-- What follows the last `/`; `npos + 1` is 0. -/
def fileName (fullpath : Bytes) : Bytes :=
  let slash := match findLastOf 0x2F fullpath with
    | some i => i + 1
    | none => 0
  (fullpath.drop slash).take fullpath.length

namespace MainWindow

variable (L : Layout) (bcon : Bytes → Bson)

/-- The end of `installScripts`, once the script is compiled. -/
def storeScript (i : Install) (filename : Bytes) (script : Option Script) (w : MainWindow) : Outcome × MainWindow :=
  let data := w.mLuaProcessor.data.take w.mLuaProcessor.dataSize
  match script with
  | some script =>
    let result := w.database.update i.writeDriver (.script (script.setBinaryData data)) w.bco
    match result.1 with
    | .error e => (.exception e, { w with database := result.2 })
    | .ok (updated, _, bco) =>
      (if updated = false then .updateFailed else .updated, { w with database := result.2, bco := bco })
  | none =>
    let result := w.database.create i.writeDriver (.script (.ofData i.writeDriver.memory filename data)) w.bco
    match result.1 with
    | .error e => (.exception e, { w with database := result.2 })
    | .ok (created, _, bco) =>
      (if created = false then .createFailed else .installed, { w with database := result.2, bco := bco })

/-- From the question on. -/
def compileAndStore (i : Install) (filename : Bytes) (script : Option Script) (w : MainWindow) : Outcome × MainWindow :=
  if script.isSome = true ∧ i.reply = .no then (.kept, w)
  else
    let compiled := w.mLuaProcessor.compileScript L i.loaded
    if compiled.1 = true then
      storeScript i filename script { w with mLuaProcessor := compiled.2.doBuffer i.ran }
    else (.compileFailed, { w with mLuaProcessor := compiled.2 })

def installScripts (i : Install) (w : MainWindow) : Outcome × MainWindow :=
  let fullpath := i.path.bytes
  if fullpath = [] then (.cancelled, w)
  else
    let filename := fileName fullpath
    let result := w.database.read Script bcon i.readDriver filename w.bco
    let w := { w with database := result.2 }
    match result.1 with
    | .error e => (.exception e, w)
    | .ok script => compileAndStore L i filename script w

/-- What the bytes do that `doBuffer` runs in the call for a script. -/
abbrev Runs := Script → Bytes → Except Bytes (List LuaValue)

/-- `m_luaProcessor->doBuffer(script->binaryData(), script->size())`; `none` after undefined behaviour. -/
def handOver (ran : Runs) (script : Script) (w : MainWindow) : Option MainWindow :=
  (w.mLuaProcessor.doRawBuffer script.buffer (ran script script.buffer.chunk)).map fun p =>
    { w with mLuaProcessor := p }

/-- `selected` is the index of the script that was selected when the dialog was accepted; an index that is not
in the list ends in an exception, which is caught. -/
def loadScript (d : Driver) (ran : Runs) (selected : Option Nat) (w : MainWindow) : Option MainWindow :=
  let result := w.database.findAll Script d w.bco
  let w := { w with database := result.2 }
  match result.1 with
  | .error _ => some w
  | .ok scripts =>
    match selected.bind (scripts[·]?) with
    | none => some w
    | some script => w.handOver ran script

def loadAllScripts (d : Driver) (ran : Runs) (w : MainWindow) : Option MainWindow :=
  let result := w.database.findAll Script d w.bco
  let w := { w with database := result.2 }
  match result.1 with
  | .error _ => some w
  | .ok scripts => scripts.foldlM (fun w script => w.handOver ran script) w

end MainWindow

/-! ### File names -/

theorem fileName_eq_drop (fullpath : Bytes) : ∃ n, fileName fullpath = fullpath.drop n ∧
    (n = 0 ∨ ∃ i, n = i + 1 ∧ fullpath[i]? = some 0x2F) := by
  unfold fileName
  cases hlast : findLastOf 0x2F fullpath with
  | none => exact ⟨0, by simp, .inl rfl⟩
  | some i =>
    refine ⟨i + 1, ?_, .inr ⟨i, rfl, getElem?_findLastOf hlast⟩⟩
    exact List.take_of_length_le (by rw [List.length_drop]; omega)

theorem ScriptPath.zero_notMem_fileName (p : ScriptPath) : 0 ∉ fileName p.bytes := by
  obtain ⟨n, hn, -⟩ := fileName_eq_drop p.bytes
  rw [hn]
  exact fun h0 => p.noNul (List.mem_of_mem_drop h0)

/-- A chosen script has a name: its path does not end in `/`. -/
theorem ScriptPath.fileName_ne_nil (p : ScriptPath) (h : p.bytes ≠ []) : fileName p.bytes ≠ [] := by
  obtain ⟨before, hsuffix⟩ := p.lua.resolve_left h
  obtain ⟨n, hn, hslash⟩ := fileName_eq_drop p.bytes
  rw [hn]
  intro hnil
  have hle := List.drop_eq_nil_iff.mp hnil
  rcases hslash with rfl | ⟨i, rfl, hi⟩
  · exact h (List.length_eq_zero_iff.mp (Nat.le_zero.mp hle))
  · have hlen : p.bytes.length = before.length + 4 := by rw [← hsuffix, List.length_append]; rfl
    have hlt := (List.getElem?_eq_some_iff.mp hi).1
    obtain rfl : i = before.length + 3 := by omega
    rw [← hsuffix, List.getElem?_append_right (by omega), show before.length + 3 - before.length = 3 by omega] at hi
    cases hi

/-! ### Handing over -/

namespace LuaProcessor

/-- `doBuffer` of one string after the other, with what each does. -/
def doBuffers (calls : List (Bytes × Except Bytes (List LuaValue))) (p : LuaProcessor) : LuaProcessor :=
  calls.foldl (fun p call => p.doBufferOf call.1 call.2) p

end LuaProcessor

namespace MainWindow

variable {w : MainWindow} {d : Driver} {scripts : List Script}

theorem handOver_eq (ran : Runs) (s : Script) (w : MainWindow) :
    w.handOver ran s = some { w with mLuaProcessor := w.mLuaProcessor.doBufferOf s.binaryData (ran s s.binaryData) } := by
  have hchunk : s.buffer.chunk = s.binaryData := RawBuffer.chunk_ofString s.binaryData
  unfold handOver
  rw [hchunk]
  exact congrArg (Option.map _) (LuaProcessor.doRawBuffer_ofString s.binaryData _ _)

/-- The strings that are run for the scripts, with what they do. -/
def runs (ran : Runs) (scripts : List Script) : List (Bytes × Except Bytes (List LuaValue)) :=
  scripts.map fun s => (s.binaryData, ran s s.binaryData)

theorem foldlM_handOver (ran : Runs) (scripts : List Script) (w : MainWindow) :
    scripts.foldlM (fun w s => w.handOver ran s) w =
      some { w with mLuaProcessor := w.mLuaProcessor.doBuffers (runs ran scripts) } := by
  induction scripts generalizing w with
  | nil => rfl
  | cons s scripts ih =>
    rw [List.foldlM_cons, handOver_eq]
    exact ih _

/-- `loadAllScripts` runs all that `findAll` finds. -/
theorem loadAllScripts_of_found (h : (w.database.findAll Script d w.bco).1 = .ok scripts) (ran : Runs) :
    w.loadAllScripts d ran = some { w with
      database := (w.database.findAll Script d w.bco).2
      mLuaProcessor := w.mLuaProcessor.doBuffers (runs ran scripts) } := by
  unfold loadAllScripts
  simp only [h]
  exact foldlM_handOver ran scripts _

/-- `loadScript` runs the one that is selected, if there is one. -/
theorem loadScript_of_found (h : (w.database.findAll Script d w.bco).1 = .ok scripts) (ran : Runs)
    (selected : Option Nat) :
    w.loadScript d ran selected = some { w with
      database := (w.database.findAll Script d w.bco).2
      mLuaProcessor := w.mLuaProcessor.doBuffers (runs ran (selected.bind (scripts[·]?)).toList) } := by
  unfold loadScript
  simp only [h]
  cases selected.bind (scripts[·]?) with
  | none => rfl
  | some s => exact handOver_eq ran s _

end MainWindow

end MetaEditor
