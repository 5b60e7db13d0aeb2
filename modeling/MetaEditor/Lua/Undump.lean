import MetaEditor.Lib.Reader
import MetaEditor.Lua.LuaCompiler

/-!
# The chunk loader

`lundump.c` of the library rebuilds a prototype from a precompiled chunk. An error carries the message
that it pushes. Two things it does not check are errors of their own here: a string constant without a
string is dereferenced, and more upvalue names than upvalues are written past the end of the array.
A nested function is loaded with less `fuel`; the number of bytes is enough (`loadFunction_fuel`).
-/

namespace MetaEditor

open Lib

/-- How loading can fail. -/
inductive LoadError
  | syntaxError (message : String)
  | nullString
  | outOfBounds
  | notBinary
  | outOfFuel
  deriving DecidableEq, Repr

/-- `error`. -/
def LoadError.because (name why : String) : LoadError := .syntaxError (name ++ ": " ++ why ++ " precompiled chunk")

/-- `luaU_header`, the loader's own copy. -/
def luaUHeader (L : Layout) : Bytes :=
  luaSignature ++
    [UInt8.ofNat luaVersion, 0, (L.intBytes 1).headD 0, UInt8.ofNat L.sizeofInt, UInt8.ofNat L.sizeofSizet,
      UInt8.ofNat L.sizeofInstruction, UInt8.ofNat L.sizeofNumber, if L.numberIntegral then 1 else 0] ++
    luacTail

namespace Undump

variable (L : Layout) (name : String)

/-- `LoadMem(S,b,n,size)` as one block. -/
def loadBlock (size : Nat) : Reader LoadError Bytes := Reader.take (.because name "truncated") size

/-- `LoadByte`. -/
def loadByte : Reader LoadError UInt8 := do
  let b ← loadBlock name 1
  return b.headD 0

def loadChar : Reader LoadError Int := do
  let x ← loadByte name
  return if L.charSigned ∧ 128 ≤ x then x.toNat - 256 else x.toNat

def loadInt : Reader LoadError Int := do
  let b ← loadBlock name L.sizeofInt
  let x := decodeInt L.littleEndian b
  if x < 0 then throw (.because name "corrupted") else return x

def loadNumber : Reader LoadError Bytes := loadBlock name L.sizeofNumber

def loadString : Reader LoadError (Option Bytes) := do
  let b ← loadBlock name L.sizeofSizet
  let size := decodeNat L.littleEndian b
  if size = 0 then return none
  else
    let s ← loadBlock name size
    return some (s.take (size - 1))

/-- The elements of a block. -/
def elements (size : Nat) : Nat → Bytes → List Bytes
  | 0, _ => []
  | n + 1, b => b.take size :: elements size n (b.drop size)

/-- `LoadVector`: `n` elements of `size` bytes in one block. -/
def loadVector (n size : Nat) : Reader LoadError (List Bytes) := do
  let b ← loadBlock name (n * size)
  return elements size n b

/-- `n=LoadInt(S)` and a loop that loads `n` elements. -/
def loadCounted {α : Type} (load : Reader LoadError α) : Reader LoadError (List α) := do
  let n ← loadInt L name
  Reader.times n.toNat load

def loadCode : Reader LoadError (List Nat) := do
  let n ← loadInt L name
  let code ← loadVector name n.toNat L.sizeofInstruction
  return code.map (decodeNat L.littleEndian)

/-- A constant after its tag. -/
def loadTagged (t : Int) : Reader LoadError TValue := do
  if t = 0 then return .nil
  else if t = 1 then return .boolean (← loadChar L name)
  else if t = 3 then return .number (← loadNumber L name)
  else if t = 4 then
    match ← loadString L name with
    | some s => return .string s
    | none => throw .nullString
  -- `lua_assert(0)` is empty, and the slot was set to nil before
  else return .nil

def loadConstant : Reader LoadError TValue := do
  let t ← loadChar L name
  loadTagged L name t

def loadConstants (loadFunction : Reader LoadError Proto) : Reader LoadError (List TValue × List Proto) := do
  let k ← loadCounted L name (loadConstant L name)
  let p ← loadCounted L name loadFunction
  return (k, p)

def loadUpvalue : Reader LoadError Upvaldesc := do
  let instack ← loadByte name
  let idx ← loadByte name
  return { name := none, instack, idx }

def loadUpvalues : Reader LoadError (List Upvaldesc) := loadCounted L name (loadUpvalue name)

def loadLineinfo : Reader LoadError (List Int) := do
  let n ← loadInt L name
  let lineinfo ← loadVector name n.toNat L.sizeofInt
  return lineinfo.map (decodeInt L.littleEndian)

def loadLocVar : Reader LoadError LocVar := do
  let varname ← loadString L name
  let startpc ← loadInt L name
  let endpc ← loadInt L name
  return { varname, startpc, endpc }

/-- The names go to the first upvalues. -/
def setNames (upvalues : List Upvaldesc) (names : List (Option Bytes)) : List Upvaldesc :=
  (upvalues.zip names).map (fun (u, name) => { u with name }) ++ upvalues.drop names.length

def loadDebug (f : Proto) : Reader LoadError Proto := do
  let source ← loadString L name
  let lineinfo ← loadLineinfo L name
  let locvars ← loadCounted L name (loadLocVar L name)
  let names ← loadCounted L name (loadString L name)
  if f.upvalues.length < names.length then throw .outOfBounds
  else return { f with source, lineinfo, locvars, upvalues := setNames f.upvalues names }

def loadFunction : Nat → Reader LoadError Proto
  | 0 => throw .outOfFuel
  | fuel + 1 => do
    let linedefined ← loadInt L name
    let lastlinedefined ← loadInt L name
    let numparams ← loadByte name
    let isVararg ← loadByte name
    let maxstacksize ← loadByte name
    let code ← loadCode L name
    let (k, p) ← loadConstants L name (loadFunction fuel)
    let upvalues ← loadUpvalues L name
    loadDebug L name
      { linedefined, lastlinedefined, numparams, isVararg, maxstacksize, code, k, p, upvalues,
        source := none, lineinfo := [], locvars := [] }

/-- `LoadHeader`. The first character is read already, and taken to be right. -/
def loadHeader : Reader LoadError Unit := do
  let h := luaUHeader L
  let rest ← loadBlock name (luacHeaderSize - 1)
  let s := h.take 1 ++ rest
  let n1 := luaSignature.length
  let n2 := n1 + 2
  let n3 := n2 + 6
  if h = s then return ()
  else if h.take n1 ≠ s.take n1 then throw (.because name "not a")
  else if h.take n2 ≠ s.take n2 then throw (.because name "version mismatch in")
  else if h.take n3 ≠ s.take n3 then throw (.because name "incompatible")
  else throw (.because name "corrupted")

/-- The name in the messages. -/
def chunkName (name : String) : String :=
  match name.toList with
  | c :: rest => if c = '@' ∨ c = '=' then String.ofList rest else if c = '\x1b' then "binary string" else name
  | [] => name

/-- `luaU_undump`, after the first character. The closure it makes has as many upvalues as the function. -/
def luaUUndump : Reader LoadError Proto := do
  loadHeader L (chunkName name)
  let input ← get
  loadFunction L (chunkName name) (input.length + 1)

/-- What `f_parser` does with a precompiled chunk. -/
def loadChunk : Reader LoadError Proto := do
  let c ← Reader.take LoadError.notBinary 1
  if c = luaSignature.take 1 then luaUUndump L name else throw .notBinary

/-! ### Fuel -/

/-- On fewer than `n` bytes the reader does not run out of fuel, and it gives no bytes back. -/
def Fueled {α : Type} (n : Nat) (p : Reader LoadError α) : Prop :=
  ∀ input : Bytes, input.length < n → p input ≠ .error .outOfFuel ∧
    ∀ a rest, p input = .ok (a, rest) → rest.length ≤ input.length

section Fuel

variable {α β : Type} {n : Nat}

theorem fueled_pure (a : α) : Fueled n (pure a : Reader LoadError α) := by
  intro input _
  refine ⟨(nomatch ·), fun a' rest h => ?_⟩
  cases h
  exact le_refl _

theorem fueled_throw {e : LoadError} (h : e ≠ .outOfFuel) : Fueled n (throw e : Reader LoadError α) := by
  intro input _
  refine ⟨fun he => h ?_, fun a rest ha => nomatch ha⟩
  cases he
  rfl

theorem fueled_take {short : LoadError} (h : short ≠ .outOfFuel) (size : Nat) : Fueled n (Reader.take short size) := by
  intro input _
  unfold Reader.take
  split_ifs
  · refine ⟨(nomatch ·), fun a rest ha => ?_⟩
    cases ha
    rw [List.length_drop]
    exact Nat.sub_le _ _
  · refine ⟨fun he => h ?_, fun a rest ha => nomatch ha⟩
    cases he
    rfl

theorem Fueled.bind {p : Reader LoadError α} {f : α → Reader LoadError β} (h : Fueled n p)
    (h' : ∀ a, Fueled n (f a)) : Fueled n (p >>= f) := by
  intro input hlt
  obtain ⟨hne, hle⟩ := h input hlt
  show (p input >>= fun r => f r.1 r.2) ≠ _ ∧ ∀ a rest, (p input >>= fun r => f r.1 r.2) = _ → _
  cases hp : p input with
  | error e =>
    rw [hp] at hne
    exact ⟨fun he => hne (by cases he; rfl), fun a rest ha => nomatch ha⟩
  | ok r =>
    have hrest := hle r.1 r.2 hp
    obtain ⟨hne', hle'⟩ := h' r.1 r.2 (by omega)
    exact ⟨hne', fun a rest ha => (hle' a rest ha).trans hrest⟩

theorem fueled_times {p : Reader LoadError α} (h : Fueled n p) (count : Nat) : Fueled n (Reader.times count p) := by
  induction count with
  | zero => exact fueled_pure []
  | succ count ih => exact h.bind fun a => ih.bind fun as => fueled_pure (a :: as)

theorem because_ne (why : String) : LoadError.because name why ≠ .outOfFuel := nofun

theorem fueled_loadBlock (size : Nat) : Fueled n (loadBlock name size) := fueled_take (because_ne name _) size

theorem fueled_loadByte : Fueled n (loadByte name) := (fueled_loadBlock name 1).bind fun _ => fueled_pure _

theorem fueled_loadChar : Fueled n (loadChar L name) := (fueled_loadByte name).bind fun _ => fueled_pure _

theorem fueled_loadInt : Fueled n (loadInt L name) := by
  refine (fueled_loadBlock name _).bind fun b => ?_
  simp only
  split_ifs
  · exact fueled_throw (because_ne name _)
  · exact fueled_pure _

theorem fueled_loadString : Fueled n (loadString L name) := by
  refine (fueled_loadBlock name _).bind fun b => ?_
  simp only
  split_ifs
  · exact fueled_pure _
  · exact (fueled_loadBlock name _).bind fun _ => fueled_pure _

theorem fueled_loadVector (count size : Nat) : Fueled n (loadVector name count size) :=
  (fueled_loadBlock name _).bind fun _ => fueled_pure _

theorem fueled_loadCounted {load : Reader LoadError α} (h : Fueled n load) : Fueled n (loadCounted L name load) :=
  (fueled_loadInt L name).bind fun _ => fueled_times h _

theorem fueled_loadTagged (t : Int) : Fueled n (loadTagged L name t) := by
  unfold loadTagged
  split_ifs
  · exact fueled_pure _
  · exact (fueled_loadChar L name).bind fun _ => fueled_pure _
  · exact (fueled_loadBlock name _).bind fun _ => fueled_pure _
  · refine (fueled_loadString L name).bind fun s => ?_
    cases s with
    | none => exact fueled_throw nofun
    | some s => exact fueled_pure _
  · exact fueled_pure _

theorem fueled_loadDebug (f : Proto) : Fueled n (loadDebug L name f) := by
  have hvector : ∀ count size, Fueled n (loadVector name count size) := fueled_loadVector name
  have hlocvar : Fueled n (loadLocVar L name) :=
    (fueled_loadString L name).bind fun _ => (fueled_loadInt L name).bind fun _ => (fueled_loadInt L name).bind fun _ => fueled_pure _
  refine (fueled_loadString L name).bind fun _ => ?_
  refine ((fueled_loadInt L name).bind fun _ => (hvector _ _).bind fun _ => fueled_pure _).bind fun _ => ?_
  refine (fueled_loadCounted L name hlocvar).bind fun _ => ?_
  refine (fueled_loadCounted L name (fueled_loadString L name)).bind fun names => ?_
  split_ifs
  · exact fueled_throw nofun
  · exact fueled_pure _

/-- What `loadInt` takes is at least a byte. -/
theorem loadInt_shorter {x : Int} {input rest : Bytes} (h : loadInt L name input = .ok (x, rest)) :
    rest.length < input.length := by
  have hpos := L.sizeofInt_pos
  change (loadBlock name L.sizeofInt input >>= _) = _ at h
  unfold loadBlock Reader.take at h
  split_ifs at h with hle
  · change (if decodeInt L.littleEndian (input.take L.sizeofInt) < 0 then throw _ else pure _ : Reader LoadError Int)
      (input.drop L.sizeofInt) = _ at h
    split_ifs at h
    · cases h
    · cases h
      rw [List.length_drop]
      omega
  · cases h

/-- A function inside another is loaded from fewer bytes, so that the fuel is never used up. -/
theorem loadFunction_fuel (fuel : Nat) : Fueled fuel (loadFunction L name fuel) := by
  induction fuel with
  | zero =>
    intro input hlt
    omega
  | succ fuel ih =>
    have hbody : ∀ linedefined : Int, Fueled fuel (do
        let lastlinedefined ← loadInt L name
        let numparams ← loadByte name
        let isVararg ← loadByte name
        let maxstacksize ← loadByte name
        let code ← loadCode L name
        let (k, p) ← loadConstants L name (loadFunction L name fuel)
        let upvalues ← loadUpvalues L name
        loadDebug L name
          { linedefined, lastlinedefined, numparams, isVararg, maxstacksize, code, k, p, upvalues,
            source := none, lineinfo := [], locvars := [] }) := by
      intro linedefined
      have hconstant : Fueled fuel (loadConstant L name) := (fueled_loadChar L name).bind (fueled_loadTagged L name)
      have hupvalue : Fueled fuel (loadUpvalue name) :=
        (fueled_loadByte name).bind fun _ => (fueled_loadByte name).bind fun _ => fueled_pure _
      refine (fueled_loadInt L name).bind fun _ => (fueled_loadByte name).bind fun _ => (fueled_loadByte name).bind fun _ =>
        (fueled_loadByte name).bind fun _ => ?_
      refine ((fueled_loadInt L name).bind fun _ => (fueled_loadVector name _ _).bind fun _ => fueled_pure _).bind fun _ => ?_
      refine ((fueled_loadCounted L name hconstant).bind fun _ => (fueled_loadCounted L name ih).bind fun _ =>
        fueled_pure _).bind fun _ => ?_
      exact (fueled_loadCounted L name hupvalue).bind fun _ => fueled_loadDebug L name _
    intro input hlt
    obtain ⟨hne, hle⟩ := fueled_loadInt L name input hlt
    show (loadInt L name input >>= _) ≠ _ ∧ ∀ a rest, (loadInt L name input >>= _) = _ → _
    cases hint : loadInt L name input with
    | error e =>
      rw [hint] at hne
      exact ⟨fun he => hne (by cases he; rfl), fun a rest ha => nomatch ha⟩
    | ok r =>
      have hshorter := loadInt_shorter L name hint
      obtain ⟨hne', hle'⟩ := hbody r.1 r.2 (by omega)
      exact ⟨hne', fun a rest ha => (hle' a rest ha).trans hshorter.le⟩

/-- Loading a chunk ends with a function or with an error of the loader. -/
theorem loadChunk_fuel (input : Bytes) : loadChunk L name input ≠ .error .outOfFuel := by
  have hfunction : Fueled (input.length + 1) (do
      let input ← get
      loadFunction L (chunkName name) (input.length + 1)) := by
    intro input' _
    exact loadFunction_fuel L (chunkName name) (input'.length + 1) input' (by omega)
  have hheader : Fueled (input.length + 1) (loadHeader L (chunkName name)) := by
    refine (fueled_loadBlock (chunkName name) _).bind fun rest => ?_
    simp only
    split_ifs
    · exact fueled_pure _
    all_goals exact fueled_throw (because_ne _ _)
  have hchunk : Fueled (input.length + 1) (loadChunk L name) := by
    have hnot : LoadError.notBinary ≠ .outOfFuel := nofun
    refine (fueled_take hnot 1).bind fun c => ?_
    split_ifs
    · exact hheader.bind fun _ => hfunction
    · exact fueled_throw hnot
  exact (hchunk input (by omega)).1

end Fuel

end Undump

end MetaEditor
