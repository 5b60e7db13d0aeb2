import MetaEditor.Lua.Blocks

/-!
# The Lua processor

`LuaProcessor` keeps a Lua state, a compiler and the buffer `m_data` with the chunk that it compiled last.
What the Lua library makes of a file and what a chunk does when it runs are given with each call.
-/

namespace MetaEditor

open Lib

/-- A value on the stack of the Lua state. -/
inductive LuaValue
  /-- The main function of a chunk. Any other function is one of the other values. -/
  | function (f : Proto)
  | message (text : Bytes)
  | other (tag : Nat)

structure LuaProcessor where
  /-- The stack of `m_state`, from its top. -/
  mState : List LuaValue
  mData : Bytes
  mCompiler : LuaCompiler Bytes

namespace LuaProcessor

/-- `lua_pop`. -/
def luaPop (n : Nat) (p : LuaProcessor) : LuaProcessor := { p with mState := p.mState.drop n }

def luaPush (values : List LuaValue) (p : LuaProcessor) : LuaProcessor := { p with mState := values ++ p.mState }

/-- `loaded` is the function that `luaL_loadfile` reads from the file, or its error message. -/
def compileScript (L : Layout) (loaded : Except Bytes Proto) (p : LuaProcessor) : Bool × LuaProcessor :=
  match loaded with
  | .error message => (false, (p.luaPush [.message message]).luaPop 1)
  | .ok f =>
    let p := p.luaPush [.function f]
    let p := if p.mData ≠ [] then { p with mData := [] } else p
    let (status, compiler) := p.mCompiler.compile L f writer p.mData true
    let p := { p with mData := compiler.mData, mCompiler := compiler }
    if status ≠ 0 then (false, p) else (true, p)

/-- `luaL_dobuffer` and the `lua_pop` after an error: `ran` is what the chunk returns, or the message. -/
def luaDoBuffer (ran : Except Bytes (List LuaValue)) (p : LuaProcessor) : LuaProcessor :=
  match ran with
  | .error message => (p.luaPush [.message message]).luaPop 1
  | .ok results => p.luaPush results

/-- `doBuffer()`: the chunk in `m_data` runs. -/
def doBuffer (ran : Except Bytes (List LuaValue)) (p : LuaProcessor) : LuaProcessor := p.luaDoBuffer ran

/-- `doBuffer(buffer, size)`: `append(buffer)` stops at the first NUL, the chunk that runs does not. -/
def doBufferOf (buffer : Bytes) (ran : Except Bytes (List LuaValue)) (p : LuaProcessor) : LuaProcessor :=
  let p := if p.mData ≠ [] then { p with mData := [] } else p
  { p with mData := p.mData ++ cString buffer }.luaDoBuffer ran

def data (p : LuaProcessor) : Bytes := p.mData

def dataSize (p : LuaProcessor) : Nat := p.mData.length

@[simp] theorem mData_doBuffer (ran : Except Bytes (List LuaValue)) (p : LuaProcessor) :
    (p.doBuffer ran).mData = p.mData := by
  cases ran <;> rfl

/-- The chunk that `compileScript` makes of a function. -/
def chunkOf (L : Layout) (f : Proto) : Bytes :=
  (LuaCompiler.compile L { mWriter := writer, mData := [], mStrip := true, mStatus := 0 } f writer [] true).2.mData

theorem chunkOf_ne_nil (L : Layout) (f : Proto) : chunkOf L f ≠ [] := (compile_writer L true f _).2

/-- Clearing the buffer before it is filled again. -/
theorem mData_cleared (p : LuaProcessor) : (if p.mData ≠ [] then { p with mData := [] } else p).mData = [] := by
  split_ifs with h
  · rfl
  · exact not_not.mp h

/-- `compileScript` succeeds on every file that can be loaded, and leaves its chunk in the buffer. -/
theorem compileScript_ok (L : Layout) (f : Proto) (p : LuaProcessor) :
    (p.compileScript L (.ok f)).1 = true ∧ (p.compileScript L (.ok f)).2.mData = chunkOf L f := by
  unfold compileScript
  simp only [mData_cleared]
  rw [if_neg (not_not.mpr (compile_writer L true f _).1)]
  exact ⟨rfl, rfl⟩

end LuaProcessor

end MetaEditor
