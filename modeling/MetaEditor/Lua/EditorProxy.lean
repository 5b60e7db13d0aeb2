import MetaEditor.Lib.StdString
import MetaEditor.Lua.Results

/-!
# The methods of the editor in Lua

A script calls a method of the editor through `Luna<EditorProxy>::thunk`, which looks for the object in slot 0
of the first argument and leaves the stack as it was. The method finds its arguments above the function and
returns the number of its results: those of the methods that take a string give the size of the string.

What a lookup in the script's tables finds, and what its metamethods do to the editor, is given with each call.
-/

namespace MetaEditor

open Lib

/-- What a method asks of the editor, whose states are `σ`. -/
structure IEditor (σ : Type*) where
  jumpLine : σ → σ
  addTitle : Bytes → σ → σ
  addName : Bytes → σ → σ
  structureLineCount : σ → Int
  writeText : Bytes → σ → σ

structure EditorProxy (σ : Type*) where
  mEditor : IEditor σ

namespace EditorProxy

/-- A Lua value, as far as the methods look at it. -/
inductive Value (σ : Type*)
  | nil
  /-- A number, by the text that `lua_tolstring` makes of it. -/
  | number (text : Bytes)
  | string (s : Bytes)
  /-- A userdata with the metatable that `luaL_newmetatable` made under a name, if any. -/
  | userdata (tname : Option String) (obj : EditorProxy σ)
  | other (tag : Nat)

/-- The values above the function, from its first argument to the top of the stack. -/
abbrev Frame (σ : Type*) := List (Value σ)

inductive LuaError
  /-- `typeerror`: the argument and the type that was expected of it. -/
  | typeError (narg : Int) (tname : String)
  | raised (message : Bytes)
  deriving DecidableEq, Repr

variable {σ : Type*}

/-! ### The functions of the Lua API -/

/-- `lua_tolstring`. -/
def Value.toLString : Value σ → Option Bytes
  | .string s | .number s => some s
  | _ => none

/-- `lua_pushnumber` and `lua_pushinteger`, of an integer. -/
def pushInteger (n : Int) (frame : Frame σ) : Frame σ := frame ++ [.number (toString n).toUTF8.toList]

/-- What a value has under a key, and the editor after the metamethods that were called for it. -/
abbrev Index (σ : Type*) := Value σ → Value σ → σ → Except LuaError (Value σ × σ)

/-- `lua_gettable`: the key on top is replaced by what `index` finds. An index above the top is nil. -/
def getTable (index : Index σ) (idx : Nat) (frame : Frame σ) (s : σ) : Except LuaError (Frame σ × σ) := do
  let (value, s) ← index (frame.getD (idx - 1) .nil) (frame.getLastD .nil) s
  return (frame.dropLast ++ [value], s)

/-- `luaL_checkudata` of the value on top. -/
def checkUdata (tname : String) (frame : Frame σ) : Except LuaError (EditorProxy σ) :=
  match frame.getLastD .nil with
  | .userdata (some t) obj => if t = tname then .ok obj else .error (.typeError (-1) tname)
  | _ => .error (.typeError (-1) tname)

/-- `lua_remove` of the value on top. -/
def removeTop (frame : Frame σ) : Frame σ := frame.dropLast

/-- `luaL_checklstring`: a number becomes a string where it is. -/
def checkLString (narg : Nat) (frame : Frame σ) : Except LuaError (Bytes × Frame σ) :=
  match (frame.getD (narg - 1) .nil).toLString with
  | some s => .ok (s, frame.set (narg - 1) (.string s))
  | none => .error (.typeError narg "string")

/-! ### The methods -/

/-- A method comes to its return: the integer, the values then above the function, and the editor. -/
structure Returned (σ : Type*) where
  result : Int32
  frame : Frame σ
  editor : σ

/-- `title`, `name` and `write` differ in the function of the editor that gets the string, up to its first
NUL. The size is a `size_t` and becomes an `int`. -/
def passString (f : Bytes → σ → σ) (s : σ) (frame : Frame σ) : Except LuaError (Returned σ) := do
  let (str, frame) ← checkLString 2 frame
  return { result := Int32.ofNat str.length, frame, editor := f (cString str) s }

def jumpLine (p : EditorProxy σ) (s : σ) (frame : Frame σ) : Except LuaError (Returned σ) :=
  .ok { result := -1, frame, editor := p.mEditor.jumpLine s }

def title (p : EditorProxy σ) (s : σ) (frame : Frame σ) : Except LuaError (Returned σ) :=
  passString p.mEditor.addTitle s frame

def name (p : EditorProxy σ) (s : σ) (frame : Frame σ) : Except LuaError (Returned σ) :=
  passString p.mEditor.addName s frame

def write (p : EditorProxy σ) (s : σ) (frame : Frame σ) : Except LuaError (Returned σ) :=
  passString p.mEditor.writeText s frame

def lineCount (p : EditorProxy σ) (s : σ) (frame : Frame σ) : Except LuaError (Returned σ) :=
  .ok { result := 1, frame := pushInteger (p.mEditor.structureLineCount s + 1) frame, editor := s }

/-- The pointers to member functions in the table. -/
inductive Method
  | title
  | name
  | jumpLine
  | lineCount
  | write
  deriving DecidableEq, Repr

def Method.call : Method → EditorProxy σ → σ → Frame σ → Except LuaError (Returned σ)
  | .title => EditorProxy.title
  | .name => EditorProxy.name
  | .jumpLine => EditorProxy.jumpLine
  | .lineCount => EditorProxy.lineCount
  | .write => EditorProxy.write

structure RegType where
  name : String
  mfunc : Method
  deriving DecidableEq, Repr

def className : String := "editor"

/-- `Register`, without the entry that ends it; the last two are there with `__LOG_TEST__`. -/
def Register (logTest : Bool) : List RegType :=
  [{ name := "title", mfunc := .title }, { name := "name", mfunc := .name },
    { name := "jumpline", mfunc := .jumpLine }] ++
  if logTest then [{ name := "lines", mfunc := .lineCount }, { name := "write", mfunc := .write }] else []

/-- `Luna<EditorProxy>::thunk`; `i` is the upvalue that `inject` gave it. -/
def thunk (index : Index σ) (logTest : Bool) (i : Fin (Register logTest).length) (args : Frame σ) (s : σ) :
    Except LuaError (Returned σ) := do
  let (frame, s) ← getTable index 1 (pushInteger 0 args) s
  let obj ← checkUdata className frame
  ((Register logTest).get i).mfunc.call obj s (removeTop frame)

/-! ### What a call leaves on the stack -/

section

variable {index : Index σ} {logTest : Bool} {i : Fin (Register logTest).length}
  {m : Method} {p : EditorProxy σ} {s : σ} {args frame : Frame σ} {r : Returned σ}

/-- `thunk` takes away what it has put on the stack: the method finds the arguments of the call. -/
theorem call_of_thunk (h : thunk index logTest i args s = .ok r) :
    ∃ (p : EditorProxy σ) (s' : σ), ((Register logTest).get i).mfunc.call p s' args = .ok r := by
  obtain ⟨⟨found, s'⟩, hfound, h⟩ := exists_of_bind_eq_ok h
  obtain ⟨⟨value, s''⟩, -, hvalue⟩ := exists_of_bind_eq_ok hfound
  obtain ⟨p, -, hcall⟩ := exists_of_bind_eq_ok h
  obtain rfl : (pushInteger 0 args).dropLast ++ [value] = found := congrArg Prod.fst (Except.ok.inj hvalue)
  rw [removeTop, List.dropLast_concat, pushInteger, List.dropLast_concat] at hcall
  exact ⟨p, s', hcall⟩

/-- The size of the string is the result, and the stack is as high as before. -/
theorem passString_spec {f : Bytes → σ → σ} (h : passString f s frame = .ok r) :
    ∃ str, (frame.getD 1 .nil).toLString = some str ∧ r.result = Int32.ofNat str.length ∧
      r.frame.length = frame.length := by
  obtain ⟨⟨str, after⟩, hcheck, h⟩ := exists_of_bind_eq_ok h
  cases h
  unfold checkLString at hcheck
  split at hcheck
  · next hstr =>
    cases hcheck
    exact ⟨str, hstr, rfl, List.length_set⟩
  · cases hcheck

/-- A `size_t` as an `int` is between `0` and `k` exactly when its last 32 bits are. -/
theorem honest_ofNat (n k : Nat) :
    0 ≤ (Int32.ofNat n).toInt ∧ (Int32.ofNat n).toInt ≤ k ↔ n % 2 ^ 32 < 2 ^ 31 ∧ n % 2 ^ 32 ≤ k := by
  rw [Int32.toInt_ofNat', Int.bmod_def]
  have hsize : ((Int32.size : Nat) : Int) = 2 ^ 32 := rfl
  rw [hsize]
  omega

/-- When the method returns an honest count, by the arguments of the call. -/
def CountFits : Method → Frame σ → Prop
  | .jumpLine, _ => False
  | .lineCount, _ => True
  | .title, args | .name, args | .write, args =>
    ∀ str ∈ (args.getD 1 .nil).toLString, str.length % 2 ^ 32 < 2 ^ 31 ∧ str.length % 2 ^ 32 ≤ args.length

theorem passString_honest_iff {f : Bytes → σ → σ} (h : passString f s args = .ok r) :
    HonestCount r.result.toInt r.frame ↔
      ∀ str ∈ (args.getD 1 .nil).toLString, str.length % 2 ^ 32 < 2 ^ 31 ∧ str.length % 2 ^ 32 ≤ args.length := by
  obtain ⟨str, hstr, hresult, hlength⟩ := passString_spec h
  rw [HonestCount, hresult, hlength, honest_ofNat, hstr]
  simp

theorem call_honest_iff (h : m.call p s args = .ok r) :
    HonestCount r.result.toInt r.frame ↔ CountFits m args := by
  cases m with
  | title | name | write => exact passString_honest_iff h
  | jumpLine =>
    cases h
    have hneg : ¬(0 : Int) ≤ (-1 : Int32).toInt := by decide
    exact iff_of_false (fun hhonest => hneg hhonest.1) not_false
  | lineCount =>
    cases h
    have hone : (1 : Int32).toInt = 1 := rfl
    rw [HonestCount, hone, pushInteger, List.length_append, List.length_singleton]
    exact iff_of_true ⟨by omega, by omega⟩ trivial

/-- A call from a script that comes to the return of its method returns an honest count exactly when the
method is `lines`, or takes a string that is no longer, as an `int`, than there are arguments. -/
theorem thunk_count_honest_iff (h : thunk index logTest i args s = .ok r) :
    HonestCount r.result.toInt r.frame ↔ CountFits ((Register logTest).get i).mfunc args := by
  obtain ⟨p, s', hcall⟩ := call_of_thunk h
  exact call_honest_iff hcall

/-- Then the script gets the last of the values above the function, and its own stack is as before. -/
theorem poscall_of_countFits (h : thunk index logTest i args s = .ok r)
    (hfits : CountFits ((Register logTest).get i).mfunc args) (before : List (Value σ)) (f : Value σ) :
    poscall .nil (before ++ f :: r.frame) before.length r.result.toInt none =
      some (before ++ r.frame.rtake r.result.toInt.toNat) := by
  obtain ⟨p, s', hcall⟩ := call_of_thunk h
  exact (poscall_of_honest .nil before f ((call_honest_iff hcall).mpr hfits)).1

/-- Of `jumpline` a script that wants values gets nil. -/
theorem poscall_jumpLine (h : Method.jumpLine.call p s args = .ok r) (before : List (Value σ)) (f : Value σ)
    (wanted : Nat) :
    poscall .nil (before ++ f :: r.frame) before.length r.result.toInt (some wanted) =
      some (before ++ List.replicate wanted .nil) := by
  cases h
  have hneg : (-1 : Int32).toInt < 0 := by decide
  exact poscall_of_neg .nil before f hneg wanted

end

/-! ### Two calls -/

/-- An editor that keeps what it was given, one text a line. -/
def lines : IEditor (List Bytes) where
  jumpLine s := s ++ [[]]
  addTitle str s := s ++ [str]
  addName str s := s ++ [str]
  structureLineCount s := s.length
  writeText str s := s ++ [str]

/-- The table that `inject` returned. -/
def object : Value (List Bytes) := .other 0

/-- Slot 0 of that table has the userdata, and nothing else can be indexed. -/
def slots : Index (List Bytes)
  | .other 0, _, s => .ok (.userdata (some className) { mEditor := lines }, s)
  | _, _, _ => .error (.raised [])

/-- `e:title("ab")`. -/
theorem thunk_count_honest_title :
    ∃ r, thunk slots false ⟨0, by decide⟩ [object, .string [97, 98]] [] = .ok r ∧ HonestCount r.result.toInt r.frame := by
  have hcall : thunk slots false ⟨0, by decide⟩ [object, .string [97, 98]] [] = .ok _ := rfl
  refine ⟨_, hcall, (thunk_count_honest_iff hcall).mpr fun str hstr => ?_⟩
  cases hstr
  decide

/-- `e:jumpline()` has `-1` results, and `e:title("abc")` three of two values. -/
theorem thunk_count_not_honest :
    ¬(∀ (logTest : Bool) (i : Fin (Register logTest).length) (args : Frame (List Bytes)) (s : List Bytes)
      (r : Returned (List Bytes)), thunk slots logTest i args s = .ok r → HonestCount r.result.toInt r.frame) ∧
    (∃ r, thunk slots false ⟨2, by decide⟩ [object] [] = .ok r ∧ r.result = -1 ∧ r.frame.length = 1) ∧
    ∃ r, thunk slots false ⟨0, by decide⟩ [object, .string [97, 98, 99]] [] = .ok r ∧ r.result = 3 ∧
      r.frame.length = 2 := by
  refine ⟨fun h => ?_, ⟨_, rfl, rfl, rfl⟩, _, rfl, rfl, rfl⟩
  exact absurd (h false ⟨2, by decide⟩ [object] [] _ rfl) (by decide)

end EditorProxy

end MetaEditor
