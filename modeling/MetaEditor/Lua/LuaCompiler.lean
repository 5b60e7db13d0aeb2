import MetaEditor.Lua.Proto

/-!
# The bytecode dumper

`LuaCompiler` writes a prototype as a precompiled chunk, block by block, through a writer that it is
given. A writer keeps a state of its own and answers a status; after the first status that is not zero
no block is written any more.
-/

namespace MetaEditor

open Lib

/-- `LUA_SIGNATURE`, `"\033Lua"`. -/
def luaSignature : Bytes := [0x1B, 0x4C, 0x75, 0x61]

/-- `LUAC_TAIL`, `"\x19\x93\r\n\x1a\n"`. -/
def luacTail : Bytes := [0x19, 0x93, 0x0D, 0x0A, 0x1A, 0x0A]

/-- `MYINT(LUA_VERSION_MAJOR)*16+MYINT(LUA_VERSION_MINOR)` of Lua 5.2. -/
def luaVersion : Nat := 5 * 16 + 2

/-- `LUAC_HEADERSIZE`. -/
def luacHeaderSize : Nat := luaSignature.length + 2 + 6 + luacTail.length

/-- `lua_Writer`: the status of a call and the data after it. -/
abbrev Writer (σ : Type) := σ → Bytes → Int × σ

/-- `writer` of the processor: append the chunk to the buffer. -/
def writer : Writer Bytes := fun buff chunk => (0, buff ++ chunk)

structure LuaCompiler (σ : Type) where
  mWriter : Writer σ
  mData : σ
  mStrip : Bool
  mStatus : Int

namespace LuaCompiler

variable {σ : Type} (L : Layout)

def header : Bytes :=
  luaSignature ++
    [UInt8.ofNat luaVersion, 0, (L.intBytes 1).headD 0, UInt8.ofNat L.sizeofInt, UInt8.ofNat L.sizeofSizet,
      UInt8.ofNat L.sizeofInstruction, UInt8.ofNat L.sizeofNumber, if L.numberIntegral then 1 else 0] ++
    luacTail

def dumpBlock (b : Bytes) (lc : LuaCompiler σ) : LuaCompiler σ :=
  if lc.mStatus = 0 then
    { lc with mStatus := (lc.mWriter lc.mData b).1, mData := (lc.mWriter lc.mData b).2 }
  else lc

/-- `n` elements, given by their bytes. -/
def dumpMem (elements : List Bytes) : LuaCompiler σ → LuaCompiler σ := dumpBlock elements.flatten

def dumpVar (x : Bytes) : LuaCompiler σ → LuaCompiler σ := dumpMem [x]

def dumpChar (y : Int) : LuaCompiler σ → LuaCompiler σ := dumpVar [UInt8.ofInt y]

def dumpInt (x : Int) : LuaCompiler σ → LuaCompiler σ := dumpVar (L.intBytes x)

def dumpNumber (x : Bytes) : LuaCompiler σ → LuaCompiler σ := dumpVar x

def dumpVector (elements : List Bytes) (lc : LuaCompiler σ) : LuaCompiler σ :=
  lc |> dumpInt L elements.length |> dumpMem elements

def dumpString (s : Option Bytes) (lc : LuaCompiler σ) : LuaCompiler σ :=
  match s with
  | none => lc |> dumpVar (L.sizetBytes 0)
  | some s => lc |> dumpVar (L.sizetBytes (s.length + 1)) |> dumpBlock (s ++ [0])

def dumpCode (f : Proto) : LuaCompiler σ → LuaCompiler σ := dumpVector L (f.code.map L.instructionBytes)

/-- The loops `for (i=0; i<n; i++)`. -/
def dumpEach {α : Type} (dump : α → LuaCompiler σ → LuaCompiler σ) (as : List α) (lc : LuaCompiler σ) :
    LuaCompiler σ := as.foldl (fun lc a => dump a lc) lc

def dumpConstant (o : TValue) (lc : LuaCompiler σ) : LuaCompiler σ :=
  match o with
  | .nil => lc |> dumpChar 0
  | .boolean b => lc |> dumpChar 1 |> dumpChar b
  | .number n => lc |> dumpChar 3 |> dumpNumber n
  | .string s => lc |> dumpChar 4 |> dumpString L (some s)

/-- The constants, and then the nested functions as `dumpFunction` dumps them. -/
def dumpConstants (f : Proto) (functions : LuaCompiler σ → LuaCompiler σ) (lc : LuaCompiler σ) : LuaCompiler σ :=
  lc |> dumpInt L f.k.length
    |> dumpEach (dumpConstant L) f.k
    |> dumpInt L f.p.length
    |> functions

def dumpUpvalue (u : Upvaldesc) (lc : LuaCompiler σ) : LuaCompiler σ :=
  lc |> dumpChar u.instack.toNat |> dumpChar u.idx.toNat

def dumpUpvalues (f : Proto) (lc : LuaCompiler σ) : LuaCompiler σ :=
  lc |> dumpInt L f.upvalues.length |> dumpEach dumpUpvalue f.upvalues

def dumpLocVar (v : LocVar) (lc : LuaCompiler σ) : LuaCompiler σ :=
  lc |> dumpString L v.varname |> dumpInt L v.startpc |> dumpInt L v.endpc

def dumpDebug (f : Proto) (lc : LuaCompiler σ) : LuaCompiler σ :=
  let strip := lc.mStrip
  let lineinfo := if strip then [] else f.lineinfo
  let locvars := if strip then [] else f.locvars
  let upvalues := if strip then [] else f.upvalues
  lc |> dumpString L (if strip then none else f.source)
    |> dumpVector L (lineinfo.map L.intBytes)
    |> dumpInt L locvars.length
    |> dumpEach (dumpLocVar L) locvars
    |> dumpInt L upvalues.length
    |> dumpEach (fun u => dumpString L u.name) upvalues

mutual

def dumpFunction (f : Proto) (lc : LuaCompiler σ) : LuaCompiler σ :=
  match f with
  | ⟨_, _, _, _, _, _, _, p, _, _, _, _⟩ =>
    lc |> dumpInt L f.linedefined
      |> dumpInt L f.lastlinedefined
      |> dumpChar f.numparams.toNat
      |> dumpChar f.isVararg.toNat
      |> dumpChar f.maxstacksize.toNat
      |> dumpCode L f
      |> dumpConstants L f (dumpFunctions p)
      |> dumpUpvalues L f
      |> dumpDebug L f

def dumpFunctions (fs : List Proto) (lc : LuaCompiler σ) : LuaCompiler σ :=
  match fs with
  | [] => lc
  | f :: fs => lc |> dumpFunction f |> dumpFunctions fs

end

theorem dumpFunction_eq (f : Proto) (lc : LuaCompiler σ) :
    dumpFunction L f lc =
      (lc |> dumpInt L f.linedefined |> dumpInt L f.lastlinedefined |> dumpChar f.numparams.toNat
        |> dumpChar f.isVararg.toNat |> dumpChar f.maxstacksize.toNat |> dumpCode L f
        |> dumpConstants L f (dumpFunctions L f.p) |> dumpUpvalues L f |> dumpDebug L f) := by
  cases f
  rw [dumpFunction]

def dumpHeader : LuaCompiler σ → LuaCompiler σ := dumpBlock (header L)

/-- `compile`: the status, and the compiler after it. -/
def compile (_lc : LuaCompiler σ) (f : Proto) (w : Writer σ) (data : σ) (strip : Bool) : Int × LuaCompiler σ :=
  let lc := { mWriter := w, mData := data, mStrip := strip, mStatus := 0 } |> dumpHeader L |> dumpFunction L f
  (lc.mStatus, lc)

end LuaCompiler

end MetaEditor
