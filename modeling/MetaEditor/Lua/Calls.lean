import MetaEditor.Lib.Middle
import MetaEditor.Lua.LuaProcessor

/-!
# Calls of Lua functions

`callFunction` compiles a script into the buffer, runs the buffer and then calls a global function with
`lua_pcall`. It looks neither at the answer of `compileScript` nor at what the chunk leaves on the stack,
and it pushes the function after the arguments, where `lua_pcall` takes it for the last of them.
-/

namespace MetaEditor

open Lib

abbrev Globals := Bytes → LuaValue

/-- Something that the Lua library runs for the processor. -/
inductive Action
  | chunk (bytes : Bytes)
  /-- `lua_pcall` of a value; the arguments are listed from the top of the stack. -/
  | call (f : LuaValue) (args : List LuaValue)

structure LuaMachine where
  processor : LuaProcessor
  globals : Globals
  /-- What has run since the function of the processor was entered. -/
  log : List Action

/-- The answers of the Lua library during one call. -/
structure LuaLibrary where
  /-- `luaL_loadfile` on the script. -/
  loadFile : Except Bytes Proto
  loadBuffer : Bytes → Except Bytes LuaValue
  /-- `lua_pcall` of a chunk: the values that it leaves, from the top, or a message. -/
  runChunk : LuaValue → Globals → Except Bytes (List LuaValue) × Globals
  /-- `lua_pcall` of a value on arguments: its results in their order, or a message. -/
  runFunction : LuaValue → List LuaValue → Globals → Except Bytes (List LuaValue) × Globals
  callable : LuaValue → Bool

def LuaValue.nil : LuaValue := .other 0

/-- What running a buffer leaves: the values on the stack, from the top, and the global variables. -/
def LuaLibrary.leaves (lib : LuaLibrary) (buffer : Bytes) (globals : Globals) : List LuaValue × Globals :=
  match lib.loadBuffer buffer with
  | .error _ => ([], globals)
  | .ok f => ((lib.runChunk f globals).1.toOption.getD [], (lib.runChunk f globals).2)

/-- `lua_pcall` leaves exactly `n` results. -/
def adjust (n : Nat) (results : List LuaValue) : List LuaValue :=
  results.take n ++ List.replicate (n - results.length) .nil

namespace LuaMachine

/-- `luaL_dobuffer` on `m_data`, and the `lua_pop` after an error. -/
def doChunk (lib : LuaLibrary) (m : LuaMachine) : LuaMachine :=
  match lib.loadBuffer m.processor.mData with
  | .error message => { m with processor := m.processor.luaDoBuffer (.error message) }
  | .ok f =>
    { processor := m.processor.luaDoBuffer (lib.runChunk f m.globals).1
      globals := (lib.runChunk f m.globals).2
      log := m.log ++ [.chunk m.processor.mData] }

def getGlobal (name : Bytes) (m : LuaMachine) : LuaMachine :=
  { m with processor := m.processor.luaPush [m.globals name] }

@[simp] theorem mState_getGlobal (name : Bytes) (m : LuaMachine) :
    (m.getGlobal name).processor.mState = m.globals name :: m.processor.mState := rfl

/-- What `lua_pcall` puts in the place of the function and its arguments, and the `lua_pop` after an error. -/
def afterCall (numRet : Nat) (result : Except Bytes (List LuaValue)) (p : LuaProcessor) : LuaProcessor :=
  match result with
  | .ok results => p.luaPush (adjust numRet results).reverse
  | .error message => (p.luaPush [.message message]).luaPop 1

/-- `lua_pcall`: the function lies below its arguments. -/
def pcall (lib : LuaLibrary) (numArgs numRet : Nat) (m : LuaMachine) : LuaMachine :=
  let args := m.processor.mState.take numArgs
  match m.processor.mState.drop numArgs with
  | [] => m
  | f :: rest =>
    { processor := afterCall numRet (lib.runFunction f args m.globals).1 { m.processor with mState := rest }
      globals := (lib.runFunction f args m.globals).2
      log := m.log ++ [.call f args] }

/-- The first half of `callFunction`: the answer of `compileScript` is not looked at. -/
def compileAndRun (L : Layout) (lib : LuaLibrary) (m : LuaMachine) : LuaMachine :=
  doChunk lib { m with processor := (m.processor.compileScript L lib.loadFile).2, log := [] }

def callFunction (L : Layout) (lib : LuaLibrary) (name : Bytes) (numArgs numRet : Nat) (m : LuaMachine) : LuaMachine :=
  m |> compileAndRun L lib |> getGlobal name |> pcall lib numArgs numRet

/-! ### What each part does -/

variable {L : Layout} {lib : LuaLibrary} {name : Bytes} {numArgs numRet : Nat} {m : LuaMachine}

theorem compileScript_error (message : Bytes) (p : LuaProcessor) :
    p.compileScript L (.error message) = (false, p) := rfl

/-- The function that `luaL_loadfile` pushes stays on the stack. -/
theorem mState_compileScript_ok (f : Proto) (p : LuaProcessor) :
    (p.compileScript L (.ok f)).2.mState = .function f :: p.mState := by
  unfold LuaProcessor.compileScript
  simp only
  split_ifs <;> rfl

/-- What a chunk leaves on the stack: nothing, if it cannot be loaded or raises an error. -/
def left (lib : LuaLibrary) (m : LuaMachine) : List LuaValue :=
  match lib.loadBuffer m.processor.mData with
  | .error _ => []
  | .ok f =>
    match (lib.runChunk f m.globals).1 with
    | .error _ => []
    | .ok results => results

theorem mState_doChunk (lib : LuaLibrary) (m : LuaMachine) :
    (m.doChunk lib).processor.mState = left lib m ++ m.processor.mState := by
  unfold doChunk left
  cases lib.loadBuffer m.processor.mData with
  | error message => rfl
  | ok f =>
    simp only
    cases (lib.runChunk f m.globals).1 <;> rfl

theorem log_doChunk (lib : LuaLibrary) (m : LuaMachine) :
    (m.doChunk lib).log = m.log ++ (lib.loadBuffer m.processor.mData).toOption.toList.map fun _ => .chunk m.processor.mData := by
  unfold doChunk
  cases lib.loadBuffer m.processor.mData with
  | error message => simp [Except.toOption]
  | ok f => simp [Except.toOption]

theorem pcall_of_split {args rest : List LuaValue} {f : LuaValue} (h : m.processor.mState = args ++ f :: rest) :
    m.pcall lib args.length numRet =
      { processor := afterCall numRet (lib.runFunction f args m.globals).1 { m.processor with mState := rest }
        globals := (lib.runFunction f args m.globals).2
        log := m.log ++ [.call f args] } := by
  have htake : m.processor.mState.take args.length = args := by rw [h, List.take_left]
  have hdrop : m.processor.mState.drop args.length = f :: rest := by rw [h, List.drop_left]
  unfold pcall
  rw [htake, hdrop]

theorem log_pcall (lib : LuaLibrary) (numArgs numRet : Nat) (m : LuaMachine) :
    (m.pcall lib numArgs numRet).log =
      m.log ++ m.processor.mState[numArgs]?.toList.map fun f => .call f (m.processor.mState.take numArgs) := by
  unfold pcall
  rw [← List.head?_drop]
  cases m.processor.mState.drop numArgs with
  | nil => simp
  | cons f rest => simp

/-- The value that `lua_pcall` takes for the function. -/
def taken (L : Layout) (lib : LuaLibrary) (name : Bytes) (numArgs : Nat) (m : LuaMachine) : Option LuaValue :=
  ((m.compileAndRun L lib).getGlobal name).processor.mState[numArgs]?

theorem log_callFunction (L : Layout) (lib : LuaLibrary) (name : Bytes) (numArgs numRet : Nat) (m : LuaMachine) :
    (m.callFunction L lib name numArgs numRet).log = (m.compileAndRun L lib).log ++
      (m.taken L lib name numArgs).toList.map
        fun f => .call f (((m.compileAndRun L lib).getGlobal name).processor.mState.take numArgs) :=
  log_pcall _ _ _ _

/-! ### What `callFunction` executes -/

/-- A value that can be called and that is the value of a global variable. -/
def GlobalFunction (lib : LuaLibrary) (m : LuaMachine) (f : LuaValue) : Prop :=
  lib.callable f = true ∧ ∃ name, m.globals name = f

/-- The only chunk that runs is that of the script, whether out of the buffer or as a function that is called; if there is
none, no chunk and no global function runs. -/
def RunsOnlyGiven (L : Layout) (lib : LuaLibrary) (name : Bytes) (numArgs numRet : Nat) (m : LuaMachine) : Prop :=
  match lib.loadFile with
  | .ok f =>
    (∀ bytes, .chunk bytes ∈ (m.callFunction L lib name numArgs numRet).log → bytes = LuaProcessor.chunkOf L f) ∧
      ∀ g args, .call (.function g) args ∈ (m.callFunction L lib name numArgs numRet).log → g = f
  | .error _ =>
    (∀ bytes, .chunk bytes ∉ (m.callFunction L lib name numArgs numRet).log) ∧
      ∀ v args, .call v args ∈ (m.callFunction L lib name numArgs numRet).log →
        (∀ g, v ≠ .function g) ∧ ¬GlobalFunction lib m v

theorem mem_log_compileAndRun {bytes : Bytes} :
    .chunk bytes ∈ (m.compileAndRun L lib).log ↔
      (∃ f, lib.loadBuffer (m.processor.compileScript L lib.loadFile).2.mData = .ok f) ∧
        bytes = (m.processor.compileScript L lib.loadFile).2.mData := by
  rw [compileAndRun, log_doChunk]
  cases lib.loadBuffer (m.processor.compileScript L lib.loadFile).2.mData with
  | error message => simp [Except.toOption]
  | ok f => simp [Except.toOption]

theorem chunk_mem_log {bytes : Bytes} :
    .chunk bytes ∈ (m.callFunction L lib name numArgs numRet).log ↔ .chunk bytes ∈ (m.compileAndRun L lib).log := by
  rw [log_callFunction]
  simp

theorem call_mem_log {f : LuaValue} {args : List LuaValue} :
    .call f args ∈ (m.callFunction L lib name numArgs numRet).log ↔
      m.taken L lib name numArgs = some f ∧
        args = ((m.compileAndRun L lib).getGlobal name).processor.mState.take numArgs := by
  have hchunks : .call f args ∉ (m.compileAndRun L lib).log := by
    rw [compileAndRun, log_doChunk]
    simp
  rw [log_callFunction, List.mem_append, or_iff_right hchunks]
  simp [eq_comm]

/-- When nothing can be loaded the stack and the globals are those of before. -/
theorem compileAndRun_nothing {message message' : Bytes} (hfile : lib.loadFile = .error message)
    (hbuffer : lib.loadBuffer m.processor.mData = .error message') :
    m.compileAndRun L lib = { m with log := [] } := by
  unfold compileAndRun doChunk
  rw [hfile, compileScript_error]
  simp only [hbuffer]
  rfl

theorem doChunk_leaves (lib : LuaLibrary) (m : LuaMachine) :
    (m.doChunk lib).processor.mState = (lib.leaves m.processor.mData m.globals).1 ++ m.processor.mState ∧
      (m.doChunk lib).globals = (lib.leaves m.processor.mData m.globals).2 := by
  unfold doChunk LuaLibrary.leaves
  cases lib.loadBuffer m.processor.mData with
  | error message => exact ⟨rfl, rfl⟩
  | ok f =>
    refine ⟨?_, rfl⟩
    simp only
    cases (lib.runChunk f m.globals).1 <;> rfl

/-- What `lua_pcall` finds when the script could be loaded: the value of the global variable, what its chunk left, the
chunk's function, and the stack of before. -/
theorem taken_of_loaded {f : Proto} (hfile : lib.loadFile = .ok f) (name : Bytes) (numArgs : Nat) (m : LuaMachine) :
    m.taken L lib name numArgs =
      ((lib.leaves (LuaProcessor.chunkOf L f) m.globals).2 name ::
        ((lib.leaves (LuaProcessor.chunkOf L f) m.globals).1 ++ .function f :: m.processor.mState))[numArgs]? := by
  obtain ⟨hstack, hglobals⟩ := doChunk_leaves lib
    { m with processor := (m.processor.compileScript L lib.loadFile).2, log := [] }
  rw [hfile, (LuaProcessor.compileScript_ok L f m.processor).2] at hstack hglobals
  rw [taken, mState_getGlobal, compileAndRun, hfile, hstack, hglobals, mState_compileScript_ok]

/-- When the script can be loaded, what runs out of the buffer is its chunk. -/
theorem runsOnlyGiven_of_loaded {f : Proto} (hfile : lib.loadFile = .ok f) (name : Bytes) (numArgs numRet : Nat)
    (m : LuaMachine) :
    RunsOnlyGiven L lib name numArgs numRet m ↔
      ∀ g, ((lib.leaves (LuaProcessor.chunkOf L f) m.globals).2 name ::
        ((lib.leaves (LuaProcessor.chunkOf L f) m.globals).1 ++ .function f :: m.processor.mState))[numArgs]? =
          some (.function g) → g = f := by
  have hchunk : ∀ bytes, .chunk bytes ∈ (m.callFunction L lib name numArgs numRet).log →
      bytes = LuaProcessor.chunkOf L f := by
    intro bytes hmem
    obtain ⟨-, hbytes⟩ := mem_log_compileAndRun.mp (chunk_mem_log.mp hmem)
    rw [hbytes, hfile]
    exact (LuaProcessor.compileScript_ok L f m.processor).2
  unfold RunsOnlyGiven
  rw [← taken_of_loaded hfile, hfile]
  refine (and_iff_right hchunk).trans ⟨fun h g hg => ?_, fun h g args hcall => ?_⟩
  · exact h g _ (call_mem_log.mpr ⟨hg, rfl⟩)
  · exact h g (call_mem_log.mp hcall).1

/-- When it cannot, the buffer must not be loaded either, and what lies in the place of the function must be neither a chunk
nor a global function. -/
theorem runsOnlyGiven_of_missing {message : Bytes} (hfile : lib.loadFile = .error message) (name : Bytes)
    (numArgs numRet : Nat) (m : LuaMachine) :
    RunsOnlyGiven L lib name numArgs numRet m ↔
      (∃ message, lib.loadBuffer m.processor.mData = .error message) ∧
        ∀ v ∈ (m.globals name :: m.processor.mState)[numArgs]?, (∀ g, v ≠ .function g) ∧ ¬GlobalFunction lib m v := by
  unfold RunsOnlyGiven
  rw [hfile]
  cases hbuffer : lib.loadBuffer m.processor.mData with
  | ok f =>
    refine iff_of_false (fun h => h.1 m.processor.mData ?_) (by simp)
    rw [chunk_mem_log, mem_log_compileAndRun, hfile, compileScript_error]
    exact ⟨⟨f, hbuffer⟩, rfl⟩
  | error message' =>
    have hsame := compileAndRun_nothing (L := L) hfile hbuffer
    have htaken : m.taken L lib name numArgs = (m.globals name :: m.processor.mState)[numArgs]? := by
      rw [taken, hsame]
      rfl
    have hnone : ∀ bytes, .chunk bytes ∉ (m.callFunction L lib name numArgs numRet).log := by
      intro bytes hmem
      rw [chunk_mem_log, hsame] at hmem
      exact absurd hmem List.not_mem_nil
    refine (and_iff_right hnone).trans (Iff.trans ⟨fun h f hf => ?_, fun h f args hcall => ?_⟩
      (and_iff_right ⟨message', rfl⟩).symm)
    · exact h f _ (call_mem_log.mpr ⟨htaken.trans hf, rfl⟩)
    · exact h f (htaken.symm.trans (call_mem_log.mp hcall).1)

/-- A call runs only what it was given exactly when the script can be loaded and no other chunk's function lies in the
place of the function, or the script and the old buffer cannot be loaded and neither a chunk's nor a global function does. -/
theorem runsOnlyGiven_iff (L : Layout) (lib : LuaLibrary) (name : Bytes) (numArgs numRet : Nat) (m : LuaMachine) :
    RunsOnlyGiven L lib name numArgs numRet m ↔
      (∃ f, lib.loadFile = .ok f ∧
        ∀ g, ((lib.leaves (LuaProcessor.chunkOf L f) m.globals).2 name ::
          ((lib.leaves (LuaProcessor.chunkOf L f) m.globals).1 ++ .function f :: m.processor.mState))[numArgs]? =
            some (.function g) → g = f) ∨
      (∃ message, lib.loadFile = .error message) ∧ (∃ message, lib.loadBuffer m.processor.mData = .error message) ∧
        ∀ v ∈ (m.globals name :: m.processor.mState)[numArgs]?, (∀ g, v ≠ .function g) ∧ ¬GlobalFunction lib m v := by
  cases hfile : lib.loadFile with
  | ok f =>
    rw [runsOnlyGiven_of_loaded hfile]
    simp
  | error message =>
    rw [runsOnlyGiven_of_missing hfile]
    simp

/-- `return`, compiled. -/
def emptyProto : Proto :=
  { linedefined := 0, lastlinedefined := 0, numparams := 0, isVararg := 1, maxstacksize := 2, code := [0x80001F]
    k := [], p := [], upvalues := [], source := none, lineinfo := [], locvars := [] }

/-- A processor that has compiled a script. -/
def compiled : LuaMachine :=
  { processor := (LuaProcessor.compileScript layout64 (.ok emptyProto)
      { mState := [], mData := [], mCompiler := { mWriter := writer, mData := [], mStrip := true, mStatus := 0 } }).2
    globals := fun _ => .other 1
    log := [] }

/-- The next script is missing; every buffer can be loaded, chunks leave nothing and functions return nothing. -/
def missing : LuaLibrary :=
  { loadFile := .error []
    loadBuffer := fun _ => .ok (.function emptyProto)
    runChunk := fun _ globals => (.ok [], globals)
    runFunction := fun _ _ globals => (.ok [], globals)
    callable := fun _ => true }

/-- Another script, which is there; its chunk leaves nothing. -/
def another : LuaLibrary := { missing with loadFile := .ok { emptyProto with numparams := 1 } }

/-- The chunk of the script before runs again, and then the global function. When there is another script, the function
of the chunk before is still on the stack, and is called with two arguments. -/
theorem stale_chunk_runs :
    ¬(∀ m lib name numArgs numRet, RunsOnlyGiven layout64 lib name numArgs numRet m) ∧
      .chunk (LuaProcessor.chunkOf layout64 emptyProto) ∈ (compiled.callFunction layout64 missing [102] 0 0).log ∧
      .call (.other 1) [] ∈ (compiled.callFunction layout64 missing [102] 0 0).log ∧
      ∃ args, .call (.function emptyProto) args ∈ (compiled.callFunction layout64 another [102] 2 0).log := by
  have hdata : compiled.processor.mData = LuaProcessor.chunkOf layout64 emptyProto := by
    simp only [compiled]
    exact (LuaProcessor.compileScript_ok layout64 emptyProto _).2
  have hstack : compiled.processor.mState = [.function emptyProto] := by
    simp only [compiled]
    exact mState_compileScript_ok emptyProto _
  have hchunk : .chunk compiled.processor.mData ∈ (compiled.callFunction layout64 missing [102] 0 0).log :=
    chunk_mem_log.mpr (mem_log_compileAndRun.mpr ⟨⟨_, rfl⟩, rfl⟩)
  have hcall : .call (.other 1) [] ∈ (compiled.callFunction layout64 missing [102] 0 0).log :=
    call_mem_log.mpr ⟨rfl, List.take_zero.symm⟩
  have hleft : compiled.taken layout64 another [102] 2 = some (.function emptyProto) := by
    rw [taken_of_loaded rfl, hstack]
    rfl
  rw [← hdata]
  exact ⟨fun h => (h compiled missing [102] 0 0).1 _ hchunk, hchunk, hcall, _, call_mem_log.mpr ⟨hleft, rfl⟩⟩

/-! ### What `callFunction` leaves on the stack -/

/-- The global function is called with the values that were on top, and its results replace them. -/
structure CallsGlobal (L : Layout) (lib : LuaLibrary) (name : Bytes) (numArgs numRet : Nat) (m : LuaMachine) : Prop where
  calls : ∀ f args, .call f args ∈ (m.callFunction L lib name numArgs numRet).log ↔
    f = (m.compileAndRun L lib).globals name ∧ args = m.processor.mState.take numArgs
  success : ∀ results, (lib.runFunction ((m.compileAndRun L lib).globals name) (m.processor.mState.take numArgs)
      (m.compileAndRun L lib).globals).1 = .ok results →
    (m.callFunction L lib name numArgs numRet).processor.mState =
      (adjust numRet results).reverse ++ m.processor.mState.drop numArgs
  failure : ∀ message, (lib.runFunction ((m.compileAndRun L lib).globals name) (m.processor.mState.take numArgs)
      (m.compileAndRun L lib).globals).1 = .error message →
    (m.callFunction L lib name numArgs numRet).processor.mState = m.processor.mState.drop numArgs

theorem mState_afterCall (numRet : Nat) (result : Except Bytes (List LuaValue)) (p : LuaProcessor) :
    (afterCall numRet result p).mState =
      (result.toOption.map fun results => (adjust numRet results).reverse).getD [] ++ p.mState := by
  cases result <;> rfl

/-- What the values above the caller's stack are when the global function has been pushed. -/
def junk (L : Layout) (lib : LuaLibrary) (m : LuaMachine) : List LuaValue :=
  left lib { m with processor := (m.processor.compileScript L lib.loadFile).2, log := [] } ++
    lib.loadFile.toOption.toList.map .function

theorem mState_compileAndRun (L : Layout) (lib : LuaLibrary) (m : LuaMachine) :
    (m.compileAndRun L lib).processor.mState = junk L lib m ++ m.processor.mState := by
  rw [compileAndRun, mState_doChunk, junk, List.append_assoc]
  congr 1
  cases lib.loadFile with
  | error message => rfl
  | ok f => exact mState_compileScript_ok f m.processor

theorem junk_eq_nil_iff : junk L lib m = [] ↔ (∃ message, lib.loadFile = .error message) ∧ left lib m = [] := by
  unfold junk
  cases hfile : lib.loadFile with
  | error message =>
    rw [compileScript_error]
    simp [Except.toOption, left]
  | ok f => simp [Except.toOption]

theorem mState_pushed (L : Layout) (lib : LuaLibrary) (name : Bytes) (m : LuaMachine) :
    ((m.compileAndRun L lib).getGlobal name).processor.mState =
      (m.compileAndRun L lib).globals name :: (junk L lib m ++ m.processor.mState) := by
  rw [← mState_compileAndRun, mState_getGlobal]

/-- What the call leaves, when the stack before `lua_pcall` is known. -/
theorem mState_callFunction (numRet : Nat) {args rest : List LuaValue} {f : LuaValue}
    (h : ((m.compileAndRun L lib).getGlobal name).processor.mState = args ++ f :: rest) :
    (m.callFunction L lib name args.length numRet).processor.mState =
      ((lib.runFunction f args (m.compileAndRun L lib).globals).1.toOption.map
        fun results => (adjust numRet results).reverse).getD [] ++ rest := by
  rw [callFunction, pcall_of_split h, mState_afterCall]
  rfl

theorem call_mem_log_of_split (numRet : Nat) {args rest : List LuaValue} {f : LuaValue}
    (h : ((m.compileAndRun L lib).getGlobal name).processor.mState = args ++ f :: rest) (g : LuaValue) (args' : List LuaValue) :
    .call g args' ∈ (m.callFunction L lib name args.length numRet).log ↔ g = f ∧ args' = args := by
  rw [call_mem_log, taken, h, List.take_left, List.getElem?_append_right le_rfl, Nat.sub_self]
  simp [eq_comm]

/-- The call is right exactly when the function lies below its arguments on the stack of before. -/
theorem callsGlobal_iff_split (hn : numArgs ≤ m.processor.mState.length) :
    CallsGlobal L lib name numArgs numRet m ↔
      (m.compileAndRun L lib).globals name :: (junk L lib m ++ m.processor.mState) =
        m.processor.mState.take numArgs ++ (m.compileAndRun L lib).globals name :: m.processor.mState.drop numArgs := by
  set f := (m.compileAndRun L lib).globals name with hf
  set stack := f :: (junk L lib m ++ m.processor.mState) with hstack
  have hpushed : ((m.compileAndRun L lib).getGlobal name).processor.mState = stack := mState_pushed L lib name m
  constructor
  · intro h
    have hlt : numArgs < stack.length := by
      rw [hstack, List.length_cons, List.length_append]
      omega
    obtain ⟨args, rest, hsplit, hlength⟩ := exists_middle_of_getElem? (List.getElem?_eq_getElem hlt)
    rw [hsplit] at hpushed
    have hcall := (call_mem_log_of_split numRet hpushed stack[numArgs] args).mpr ⟨rfl, rfl⟩
    have hstate := mState_callFunction numRet hpushed
    rw [hlength] at hcall hstate
    obtain ⟨hfun, hargs⟩ := (h.calls _ _).mp hcall
    rw [← hf] at hfun
    have hrest : rest = m.processor.mState.drop numArgs := by
      rw [hfun, hargs] at hstate
      cases hresult : (lib.runFunction f (m.processor.mState.take numArgs) (m.compileAndRun L lib).globals).1 with
      | ok results =>
        have hgiven := h.success results hresult
        rw [hresult] at hstate
        exact List.append_cancel_left (hstate.symm.trans hgiven)
      | error message =>
        have hgiven := h.failure message hresult
        rw [hresult] at hstate
        exact hstate.symm.trans hgiven
    rw [hsplit, hfun, hargs, hrest]
  · intro hsplit
    rw [hsplit] at hpushed
    have hlength : (m.processor.mState.take numArgs).length = numArgs := List.length_take_of_le hn
    have hcall := call_mem_log_of_split numRet hpushed
    have hstate := mState_callFunction numRet hpushed
    rw [hlength] at hcall hstate
    refine ⟨hcall, fun results hresult => ?_, fun message hresult => ?_⟩
    · rw [hstate, hresult]
      rfl
    · rw [hstate, hresult]
      rfl

/-- `compileScript` leaves the stack as it was exactly when the script cannot be loaded. `callFunction` calls
the global function with the arguments that it was given exactly when the script cannot be loaded, the
buffer leaves nothing on the stack, and every argument is the function itself. -/
theorem stack_kept_iff (L : Layout) (lib : LuaLibrary) (name : Bytes) (numRet : Nat) {m : LuaMachine} {numArgs : Nat}
    (hn : numArgs ≤ m.processor.mState.length) :
    ((m.processor.compileScript L lib.loadFile).2.mState = m.processor.mState ↔ ∃ message, lib.loadFile = .error message) ∧
      (CallsGlobal L lib name numArgs numRet m ↔
        (∃ message, lib.loadFile = .error message) ∧ left lib m = [] ∧
          ∀ v ∈ m.processor.mState.take numArgs, v = (m.compileAndRun L lib).globals name) := by
  constructor
  · cases hfile : lib.loadFile with
    | error message => exact iff_of_true rfl ⟨message, rfl⟩
    | ok f =>
      refine iff_of_false (fun h => ?_) nofun
      rw [mState_compileScript_ok] at h
      exact List.cons_ne_self _ _ h
  · rw [callsGlobal_iff_split hn, cons_append_eq_insert_iff, junk_eq_nil_iff, and_assoc]

/-- The caller has pushed one argument. -/
def pushed : LuaMachine :=
  { processor := { mState := [.other 2], mData := [], mCompiler := compiled.processor.mCompiler }
    globals := fun _ => .other 1
    log := [] }

theorem stack_kept_iff_pushed :
    ((pushed.processor.compileScript layout64 missing.loadFile).2.mState = pushed.processor.mState ↔
        ∃ message, missing.loadFile = .error message) ∧
      (CallsGlobal layout64 missing [102] 1 0 pushed ↔
        (∃ message, missing.loadFile = .error message) ∧ left missing pushed = [] ∧
          ∀ v ∈ pushed.processor.mState.take 1, v = (pushed.compileAndRun layout64 missing).globals [102]) :=
  stack_kept_iff layout64 missing [102] 0 (by decide)

/-- A script is there, and its chunk leaves nothing. -/
def present : LuaLibrary := { missing with loadFile := .ok emptyProto }

/-- The compiled script stays on the stack, and is called in the place of the global function. -/
theorem script_called :
    ¬(∀ loaded p, (LuaProcessor.compileScript layout64 loaded p).2.mState = p.mState) ∧
      ¬(∀ m lib name numArgs numRet, numArgs ≤ m.processor.mState.length → CallsGlobal layout64 lib name numArgs numRet m) ∧
      .call (.function emptyProto) [.other 1] ∈ (pushed.callFunction layout64 present [102] 1 0).log := by
  have hstack := mState_compileScript_ok (L := layout64) emptyProto pushed.processor
  have hpushed : ((pushed.compileAndRun layout64 present).getGlobal [102]).processor.mState =
      [.other 1] ++ .function emptyProto :: [.other 2] := by
    rw [getGlobal, LuaProcessor.luaPush, compileAndRun, mState_doChunk]
    exact congrArg (.other 1 :: ·) hstack
  have hcall := (call_mem_log_of_split 0 hpushed (.function emptyProto) [.other 1]).mpr ⟨rfl, rfl⟩
  refine ⟨fun h => ?_, fun h => ?_, hcall⟩
  · exact List.cons_ne_self _ _ (hstack.symm.trans (h _ _))
  · obtain ⟨hfun, -⟩ := ((h pushed present [102] 1 0 (by decide)).calls _ _).mp hcall
    cases hfun

end LuaMachine

end MetaEditor
