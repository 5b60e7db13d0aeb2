import MetaEditor.Lua.LuaProcessor

/-!
# The buffer of the processor

`m_data` is cleared and refilled by `compileScript` and by `doBuffer(buffer, size)`. The first fills it
with the blocks of one chunk. The second has a pointer and a size: it runs `size` bytes, but it appends
from the pointer up to the first NUL, wherever that is in memory. A pointer that came from `data()` is not
valid any more when `m_data` has been cleared.
-/

namespace MetaEditor

open Lib

/-- A `const char*` with the memory that can be read from there on, none of it in `m_data`, and the size that is passed
with it. -/
structure RawBuffer where
  memory : Bytes
  size : Nat
  size_le : size ≤ memory.length
  deriving DecidableEq, Repr

namespace RawBuffer

/-- `data()` and `size()` of a `std::string`: there is a NUL behind its bytes. -/
def ofString (s : Bytes) : RawBuffer :=
  { memory := s ++ [0], size := s.length, size_le := (List.prefix_append s [0]).length_le }

/-- The `size` bytes that are meant. -/
def chunk (b : RawBuffer) : Bytes := b.memory.take b.size

theorem chunk_ofString (s : Bytes) : (ofString s).chunk = s := List.take_left

/-- What `append(const char*)` appends; without a NUL it reads on behind the memory, which is undefined. -/
def appended (b : RawBuffer) : Option Bytes := if (0 : UInt8) ∈ b.memory then some (cString b.memory) else none

/-- No byte of the chunk is NUL, and the one behind it is. -/
def Terminated (b : RawBuffer) : Prop := (0 : UInt8) ∉ b.chunk ∧ b.memory[b.size]? = some 0

instance (b : RawBuffer) : Decidable b.Terminated := inferInstanceAs (Decidable (_ ∧ _))

/-- The string is the whole chunk exactly when the chunk is a C string of its length. -/
theorem appended_eq_chunk_iff (b : RawBuffer) : b.appended = some b.chunk ↔ b.Terminated := by
  have hlength : b.chunk.length = b.size := List.length_take_of_le b.size_le
  constructor
  · intro h
    unfold appended at h
    split_ifs at h with hmem
    have hstring : cString b.memory = b.chunk := Option.some.inj h
    obtain ⟨rest, hrest⟩ := exists_eq_cString_append hmem
    rw [hstring] at hrest
    refine ⟨hstring ▸ zero_notMem_cString b.memory, ?_⟩
    rw [hrest, List.getElem?_append_right hlength.le, hlength, Nat.sub_self]
    rfl
  · intro ⟨hnone, hzero⟩
    obtain ⟨hlt, hget⟩ := List.getElem?_eq_some_iff.mp hzero
    have hmemory : b.memory = b.chunk ++ 0 :: b.memory.drop (b.size + 1) := by
      rw [← hget, ← List.drop_eq_getElem_cons hlt, chunk, List.take_append_drop]
    have hmem : (0 : UInt8) ∈ b.memory := List.mem_of_getElem? hzero
    have hstring : cString b.memory = b.chunk := by
      rw [hmemory, cString_append hnone]
    rw [appended, if_pos hmem, hstring]

end RawBuffer

namespace LuaProcessor

/-- `doBuffer(buffer, size)` on the memory behind the pointer. -/
def doRawBuffer (b : RawBuffer) (ran : Except Bytes (List LuaValue)) (p : LuaProcessor) : Option LuaProcessor :=
  let p := if p.mData ≠ [] then { p with mData := [] } else p
  b.appended.map fun s => { p with mData := p.mData ++ s }.luaDoBuffer ran

@[simp] theorem mData_luaDoBuffer (ran : Except Bytes (List LuaValue)) (p : LuaProcessor) :
    (p.luaDoBuffer ran).mData = p.mData := by
  cases ran <;> rfl

theorem mData_doRawBuffer (b : RawBuffer) (ran : Except Bytes (List LuaValue)) (p : LuaProcessor) :
    (p.doRawBuffer b ran).map mData = b.appended := by
  unfold doRawBuffer
  rw [Option.map_map]
  cases b.appended with
  | none => rfl
  | some s =>
    simp only [Option.map_some, Function.comp_apply, mData_luaDoBuffer, mData_cleared, List.nil_append]

/-- A string goes into the buffer up to its first NUL, and runs whole. -/
theorem doRawBuffer_ofString (s : Bytes) (ran : Except Bytes (List LuaValue)) (p : LuaProcessor) :
    p.doRawBuffer (.ofString s) ran = some (p.doBufferOf s ran) := by
  have hmem : (0 : UInt8) ∈ (RawBuffer.ofString s).memory := List.mem_append_right s (List.mem_singleton_self 0)
  have happended : (RawBuffer.ofString s).appended = some (cString s) :=
    (if_pos hmem).trans (congrArg some (cString_append_zero s))
  unfold doRawBuffer
  rw [happended]
  rfl

/-- `doBuffer(data() + offset, size)`: clearing `m_data` takes away the memory that the pointer points to. When `m_data` is
empty it is not cleared, and there is the NUL behind it to be read. -/
def doOwnBuffer (offset size : Nat) (ran : Except Bytes (List LuaValue)) (p : LuaProcessor) : Option LuaProcessor :=
  if h : p.mData = [] ∧ offset = 0 ∧ size ≤ 1 then p.doRawBuffer { memory := [0], size := size, size_le := h.2.2 } ran
  else none

/-- The bytes at the pointer before the call. -/
def ownChunk (offset size : Nat) (p : LuaProcessor) : Bytes := ((p.mData ++ [0]).drop offset).take size

/-- The buffer has that chunk afterwards only if nothing was in it and nothing comes. -/
theorem mData_doOwnBuffer_iff (offset size : Nat) (ran : Except Bytes (List LuaValue)) (p : LuaProcessor) :
    (p.doOwnBuffer offset size ran).map mData = some (p.ownChunk offset size) ↔ p.mData = [] ∧ offset = 0 ∧ size = 0 := by
  by_cases h : p.mData = [] ∧ offset = 0 ∧ size ≤ 1
  · have hcall : (p.doOwnBuffer offset size ran).map mData = some [] := by
      rw [doOwnBuffer, dif_pos h, mData_doRawBuffer]
      rfl
    obtain ⟨hdata, rfl, hsize⟩ := h
    rw [hcall, ownChunk, hdata]
    obtain rfl | rfl : size = 0 ∨ size = 1 := by omega
    · exact iff_of_true rfl ⟨rfl, rfl, rfl⟩
    · exact iff_of_false (by decide) nofun
  · rw [doOwnBuffer, dif_neg h]
    refine iff_of_false nofun ?_
    rintro ⟨hdata, hoffset, rfl⟩
    exact h ⟨hdata, hoffset, Nat.zero_le 1⟩

/-- The processor after its construction; `compile` sets the members of the compiler. -/
def new (compiler : LuaCompiler Bytes) : LuaProcessor := { mState := [], mData := [], mCompiler := compiler }

end LuaProcessor

/-! ### Runs -/

/-- A call, with what the Lua library makes of the file, and of the bytes that it is given to run. -/
inductive ProcessorCall
  | compileScript (loaded : Except Bytes Proto)
  | doBuffer (ran : Bytes → Except Bytes (List LuaValue))
  | doRawBuffer (b : RawBuffer) (ran : Bytes → Except Bytes (List LuaValue))
  /-- The pointer is `data() + offset`. -/
  | doOwnBuffer (offset size : Nat) (ran : Bytes → Except Bytes (List LuaValue))

/-- A processor, or none after undefined behaviour, beside the most recent chunk and what ran last. -/
structure Buffered where
  processor : Option LuaProcessor
  chunk : Bytes
  ran : Option Bytes

namespace Buffered

open LuaProcessor

variable (L : Layout)

def start (compiler : LuaCompiler Bytes) : Buffered := { processor := some (new compiler), chunk := [], ran := none }

/-- The call on a processor, the chunk that it should hold afterwards, and the bytes that run in it. -/
def call (s : Buffered) (p : LuaProcessor) : ProcessorCall → Buffered
  | .compileScript loaded =>
    { processor := some (p.compileScript L loaded).2
      chunk := if (p.compileScript L loaded).1 = true then (loaded.toOption.map (chunkOf L)).getD s.chunk else s.chunk
      ran := none }
  | .doBuffer ran => { processor := some (p.doBuffer (ran p.mData)), chunk := s.chunk, ran := some p.mData }
  | .doRawBuffer b ran => { processor := p.doRawBuffer b (ran b.chunk), chunk := b.chunk, ran := some b.chunk }
  | .doOwnBuffer offset size ran =>
    { processor := p.doOwnBuffer offset size (ran (p.ownChunk offset size))
      chunk := p.ownChunk offset size
      ran := some (p.ownChunk offset size) }

def step (s : Buffered) (c : ProcessorCall) : Buffered :=
  match s.processor with
  | none => s
  | some p => s.call L p c

/-- `data` and `dataSize` are the most recent chunk. -/
def Whole (s : Buffered) : Prop := ∃ p, s.processor = some p ∧ p.data = s.chunk ∧ p.dataSize = s.chunk.length

/-- What a call must do: leave the most recent chunk in the buffer, and run it if it is `doBuffer()`. -/
structure Kept (s : Buffered) (c : ProcessorCall) : Prop where
  whole : Whole (s.step L c)
  reruns : ∀ ran, c = .doBuffer ran → (s.step L c).ran = some (s.step L c).chunk

/-- `compileScript` and `doBuffer()` always do, `doBuffer(buffer, size)` for a C string of that size that is not in
`m_data`, or for nothing when `m_data` is empty. -/
def Clean (s : Buffered) : ProcessorCall → Prop
  | .doRawBuffer b _ => b.Terminated
  | .doOwnBuffer offset size _ => s.chunk = [] ∧ offset = 0 ∧ size = 0
  | _ => True

variable {L} {s : Buffered}

theorem step_of_processor {p : LuaProcessor} (h : s.processor = some p) (c : ProcessorCall) : s.step L c = s.call L p c := by
  rw [step, h]

/-- A script that cannot be loaded changes neither the buffer nor the chunk. -/
theorem whole_compileScript (h : Whole s) (loaded : Except Bytes Proto) : Whole (s.step L (.compileScript loaded)) := by
  obtain ⟨p, hp, hdata, -⟩ := h
  rw [step_of_processor hp]
  cases loaded with
  | error message => exact ⟨p, rfl, hdata, congrArg List.length hdata⟩
  | ok f =>
    obtain ⟨htrue, hchunk⟩ := compileScript_ok L f p
    have hcall : (s.call L p (.compileScript (.ok f))).chunk = chunkOf L f := if_pos htrue
    exact ⟨_, rfl, hchunk.trans hcall.symm, congrArg List.length (hchunk.trans hcall.symm)⟩

theorem kept_doBuffer (h : Whole s) (ran : Bytes → Except Bytes (List LuaValue)) : Kept L s (.doBuffer ran) := by
  obtain ⟨p, hp, hdata, -⟩ := h
  have hsame : (p.doBuffer (ran p.mData)).data = s.chunk := (mData_doBuffer _ p).trans hdata
  refine ⟨?_, fun _ _ => ?_⟩
  · rw [step_of_processor hp]
    exact ⟨_, rfl, hsame, congrArg List.length hsame⟩
  · rw [step_of_processor hp]
    exact congrArg some hdata

/-- A call that is given its chunk must have it in the buffer afterwards. -/
theorem kept_iff_mData {c : ProcessorCall} {q : Option LuaProcessor} {chunk : Bytes} (hcall : ∀ ran, c ≠ .doBuffer ran)
    (hq : (s.step L c).processor = q) (hchunk : (s.step L c).chunk = chunk) :
    Kept L s c ↔ q.map mData = some chunk := by
  constructor
  · intro hkept
    obtain ⟨p, hp, hdata, -⟩ := hkept.whole
    rw [← hq, hp, ← hchunk]
    exact congrArg some hdata
  · intro hdata
    obtain ⟨p, hp, hsame⟩ := Option.map_eq_some_iff.mp hdata
    refine ⟨⟨p, hq.trans hp, hsame.trans hchunk.symm, ?_⟩, fun ran hran => absurd hran (hcall ran)⟩
    rw [hchunk, ← hsame]
    rfl

theorem kept_doRawBuffer_iff (h : Whole s) (b : RawBuffer) (ran : Bytes → Except Bytes (List LuaValue)) :
    Kept L s (.doRawBuffer b ran) ↔ b.Terminated := by
  obtain ⟨p, hp, -, -⟩ := h
  have hstep := step_of_processor (L := L) hp (.doRawBuffer b ran)
  rw [kept_iff_mData (c := .doRawBuffer b ran) nofun (congrArg processor hstep) (congrArg Buffered.chunk hstep),
    ← b.appended_eq_chunk_iff]
  exact iff_of_eq (congrArg (· = some b.chunk) (mData_doRawBuffer b (ran b.chunk) p))

theorem kept_doOwnBuffer_iff (h : Whole s) (offset size : Nat) (ran : Bytes → Except Bytes (List LuaValue)) :
    Kept L s (.doOwnBuffer offset size ran) ↔ s.chunk = [] ∧ offset = 0 ∧ size = 0 := by
  obtain ⟨p, hp, hdata, -⟩ := h
  have hstep := step_of_processor (L := L) hp (.doOwnBuffer offset size ran)
  rw [kept_iff_mData (c := .doOwnBuffer offset size ran) nofun (congrArg processor hstep) (congrArg Buffered.chunk hstep),
    ← hdata]
  exact mData_doOwnBuffer_iff offset size (ran (p.ownChunk offset size)) p

theorem kept_iff (h : Whole s) (c : ProcessorCall) : Kept L s c ↔ Clean s c := by
  cases c with
  | compileScript loaded => exact iff_of_true ⟨whole_compileScript h loaded, nofun⟩ trivial
  | doBuffer ran => exact iff_of_true (kept_doBuffer h ran) trivial
  | doRawBuffer b ran => exact kept_doRawBuffer_iff h b ran
  | doOwnBuffer offset size ran => exact kept_doOwnBuffer_iff h offset size ran

/-- The buffer holds one whole chunk after every call exactly when every chunk that comes as a pointer and
a size has no NUL in it and one behind it, and is not in the buffer itself. -/
theorem kept_all_iff_clean (compiler : LuaCompiler Bytes) {calls : List ProcessorCall} :
    StepsMeet (step L) (Kept L) (start compiler) calls ↔ StepsMeet (step L) Clean (start compiler) calls := by
  have hstart : Whole (start compiler) := ⟨new compiler, rfl, rfl, rfl⟩
  exact stepsMeet_iff Whole (fun _ c h => kept_iff h c) (fun _ c h hclean => ((kept_iff h c).mpr hclean).whole) hstart

/-- A compiled chunk has a NUL in its header. -/
theorem zero_mem_chunkOf (L : Layout) (f : Proto) : (0 : UInt8) ∈ chunkOf L f := by
  obtain ⟨blocks, h⟩ := hasBlocks_function L true f
  rw [chunkOf, compile_of_dumps h]
  refine List.mem_append_left _ ?_
  simp [LuaCompiler.header]

/-- So that a compiled chunk never comes back whole. -/
theorem not_terminated_of_chunkOf {b : RawBuffer} {f : Proto} (h : b.chunk = chunkOf L f) : ¬b.Terminated :=
  fun hterminated => hterminated.1 (h ▸ zero_mem_chunkOf L f)

/-- The first bytes of a chunk, with a NUL in the header and one behind them. -/
def compiledHeader : RawBuffer :=
  { memory := luaSignature ++ [UInt8.ofNat luaVersion, 0, 1, 0], size := 7, size_le := by decide }

/-- `data()` ends before the NUL, two bytes short of the chunk that ran. -/
theorem header_cut :
    ¬(∀ calls : List ProcessorCall, StepsMeet (step layout64) (Kept layout64)
        (start { mWriter := writer, mData := [], mStrip := true, mStatus := 0 }) calls) ∧
      compiledHeader.appended = some (luaSignature ++ [UInt8.ofNat luaVersion]) ∧
      compiledHeader.chunk = luaSignature ++ [UInt8.ofNat luaVersion, 0, 1] := by
  refine ⟨fun h => ?_, by decide, by decide⟩
  have hkept := (h [.doRawBuffer compiledHeader fun _ => .ok []]).1
  have hwhole : Whole (start { mWriter := writer, mData := [], mStrip := true, mStatus := 0 }) := ⟨_, rfl, rfl, rfl⟩
  exact absurd ((kept_doRawBuffer_iff hwhole _ _).mp hkept) (by decide)

end Buffered

end MetaEditor
