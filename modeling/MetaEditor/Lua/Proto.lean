import MetaEditor.Lib.ByteOrder

/-!
# Lua prototypes

A compiled function as the library keeps it in memory, with its nested functions. `int`s are integers,
a `TString*` is its bytes or `none` for `NULL`, and a `lua_Number` is the bytes of its representation.
`Layout` is the native layout that the dumper and the loader are both compiled with.
-/

namespace MetaEditor

open Lib

structure Layout where
  sizeofInt : Nat
  sizeofSizet : Nat
  sizeofInstruction : Nat
  sizeofNumber : Nat
  littleEndian : Bool
  charSigned : Bool
  /-- `((lua_Number)0.5)==0`. -/
  numberIntegral : Bool
  sizeofInt_pos : 0 < sizeofInt
  deriving DecidableEq

namespace Layout

variable (L : Layout)

def intBytes (x : Int) : Bytes := encodeInt L.littleEndian L.sizeofInt x

def sizetBytes (x : Nat) : Bytes := encodeNat L.littleEndian L.sizeofSizet x

def instructionBytes (x : Nat) : Bytes := encodeNat L.littleEndian L.sizeofInstruction x

/-- The values of an `int`. -/
def IntRange (x : Int) : Prop := -(256 ^ L.sizeofInt) ≤ 2 * x ∧ 2 * x < 256 ^ L.sizeofInt

/-- The values of an `int` that are not negative: counts, lines and program counters. -/
def CountRange (x : Int) : Prop := 0 ≤ x ∧ 2 * x < 256 ^ L.sizeofInt

instance (x : Int) : Decidable (L.IntRange x) := inferInstanceAs (Decidable (_ ∧ _))

instance (x : Int) : Decidable (L.CountRange x) := inferInstanceAs (Decidable (_ ∧ _))

theorem CountRange.intRange {L : Layout} {x : Int} (h : L.CountRange x) : L.IntRange x := by
  have hpos : (0 : Int) < 256 ^ L.sizeofInt := by positivity
  obtain ⟨hnn, hlt⟩ := h
  exact ⟨by omega, hlt⟩

end Layout

/-- The layout of a 64-bit little-endian machine. -/
def layout64 : Layout :=
  { sizeofInt := 4, sizeofSizet := 8, sizeofInstruction := 4, sizeofNumber := 8, littleEndian := true,
    charSigned := true, numberIntegral := false, sizeofInt_pos := by decide }

structure Upvaldesc where
  name : Option Bytes
  instack : UInt8
  idx : UInt8
  deriving DecidableEq, Repr

def Upvaldesc.unnamed (u : Upvaldesc) : Upvaldesc := { u with name := none }

structure LocVar where
  varname : Option Bytes
  startpc : Int
  endpc : Int
  deriving DecidableEq, Repr

/-- A constant: `LUA_TNIL`, `LUA_TBOOLEAN`, `LUA_TNUMBER` or `LUA_TSTRING`. -/
inductive TValue
  | nil
  | boolean (b : Int)
  | number (n : Bytes)
  | string (s : Bytes)
  deriving DecidableEq, Repr

/-- `Proto`. The sizes are the lengths of the lists. -/
structure Proto where
  linedefined : Int
  lastlinedefined : Int
  numparams : UInt8
  isVararg : UInt8
  maxstacksize : UInt8
  code : List Nat
  k : List TValue
  p : List Proto
  upvalues : List Upvaldesc
  source : Option Bytes
  lineinfo : List Int
  locvars : List LocVar

/-- What a function inherits from the functions nested in it holds of every function. -/
theorem Proto.induction {P : Proto → Prop} (h : ∀ f : Proto, (∀ g ∈ f.p, P g) → P f) (f : Proto) : P f :=
  h f fun g _hg => Proto.induction h g
termination_by sizeOf f
decreasing_by
  have hlt := List.sizeOf_lt_of_mem _hg
  cases f
  simp at hlt ⊢
  omega

/-! ### Values that fit the layout -/

/-- The size of a string with its final NUL is a `size_t`. -/
def stringInRange (L : Layout) (s : Option Bytes) : Prop := ∀ b ∈ s, b.length + 1 < 256 ^ L.sizeofSizet

def TValue.InRange (L : Layout) : TValue → Prop
  | .nil => True
  | .boolean b => 0 ≤ b ∧ b < 128
  | .number n => n.length = L.sizeofNumber
  | .string s => stringInRange L (some s)

def LocVar.InRange (L : Layout) (v : LocVar) : Prop :=
  stringInRange L v.varname ∧ L.CountRange v.startpc ∧ L.CountRange v.endpc

/-- Every part of the tree fits the layout, and what must not be negative is not. -/
inductive Proto.InRange (L : Layout) : Proto → Prop
  | mk {f : Proto} (linedefined : L.CountRange f.linedefined) (lastlinedefined : L.CountRange f.lastlinedefined)
      (sizecode : L.CountRange f.code.length) (code : ∀ i ∈ f.code, i < 256 ^ L.sizeofInstruction)
      (sizek : L.CountRange f.k.length) (k : ∀ o ∈ f.k, o.InRange L)
      (sizep : L.CountRange f.p.length) (p : ∀ g ∈ f.p, Proto.InRange L g)
      (sizeupvalues : L.CountRange f.upvalues.length) (names : ∀ u ∈ f.upvalues, stringInRange L u.name)
      (source : stringInRange L f.source)
      (sizelineinfo : L.CountRange f.lineinfo.length) (lineinfo : ∀ x ∈ f.lineinfo, L.IntRange x)
      (sizelocvars : L.CountRange f.locvars.length) (locvars : ∀ v ∈ f.locvars, v.InRange L) :
      Proto.InRange L f

/-! ### Stripping -/

mutual

/-- The function without its source, line information, local variables and upvalue names, and its
nested functions likewise. -/
def Proto.stripped : Proto → Proto
  | f@⟨_, _, _, _, _, _, _, p, _, _, _, _⟩ =>
    { f with
      p := Proto.strippedAll p
      upvalues := f.upvalues.map Upvaldesc.unnamed
      source := none
      lineinfo := []
      locvars := [] }

def Proto.strippedAll : List Proto → List Proto
  | [] => []
  | f :: fs => f.stripped :: Proto.strippedAll fs

end

theorem Proto.strippedAll_eq_map (fs : List Proto) : Proto.strippedAll fs = fs.map Proto.stripped := by
  induction fs with
  | nil => rfl
  | cons f fs ih => rw [Proto.strippedAll, ih, List.map_cons]

end MetaEditor
