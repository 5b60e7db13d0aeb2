import MetaEditor.Lib.Sticky
import MetaEditor.Lua.LuaCompiler

/-!
# The blocks of a dump

A dumper passes a fixed sequence of blocks to `dumpBlock`, whatever the writer (`Dumps`). Every function
has such a sequence, so `compile` passes the header and all of it to the writer until a block is refused. The
processor's writer never refuses one, and collects them all.
-/

namespace MetaEditor

open Lib LuaCompiler

/-- A dumper, for a writer of any kind. -/
abbrev Dumper := (σ : Type) → LuaCompiler σ → LuaCompiler σ

/-- The blocks that a dumper writes. -/
def Dumps (strip : Bool) (d : Dumper) (blocks : List Bytes) : Prop :=
  ∀ (σ : Type) (lc : LuaCompiler σ), lc.mStrip = strip → d σ lc = blocks.foldl (fun lc b => dumpBlock b lc) lc

@[simp] theorem mStrip_dumpBlock {σ : Type} (b : Bytes) (lc : LuaCompiler σ) : (dumpBlock b lc).mStrip = lc.mStrip := by
  unfold dumpBlock
  split_ifs <;> rfl

theorem mStrip_foldl {σ : Type} (blocks : List Bytes) (lc : LuaCompiler σ) :
    (blocks.foldl (fun lc b => dumpBlock b lc) lc).mStrip = lc.mStrip := by
  induction blocks generalizing lc with
  | nil => rfl
  | cons b blocks ih => rw [List.foldl_cons, ih, mStrip_dumpBlock]

theorem dumpVar_eq {σ : Type} (b : Bytes) : (dumpVar b : LuaCompiler σ → LuaCompiler σ) = dumpBlock b := by
  rw [dumpVar, dumpMem, List.flatten_singleton]

section Rules

variable {strip : Bool} {d d' : Dumper} {blocks blocks' : List Bytes}

theorem dumps_block (b : Bytes) : Dumps strip (fun _ => dumpBlock b) [b] := fun _ _ _ => rfl

theorem dumps_var (b : Bytes) : Dumps strip (fun _ => dumpVar b) [b] := by
  intro σ lc _
  show dumpVar b lc = dumpBlock b lc
  rw [dumpVar_eq]

theorem dumps_id : Dumps strip (fun _ lc => lc) [] := fun _ _ _ => rfl

theorem Dumps.seq (h : Dumps strip d blocks) (h' : Dumps strip d' blocks') :
    Dumps strip (fun σ lc => d' σ (d σ lc)) (blocks ++ blocks') := by
  intro σ lc hstrip
  have hstrip' : (d σ lc).mStrip = strip := by rw [h σ lc hstrip, mStrip_foldl, hstrip]
  show d' σ (d σ lc) = _
  rw [h' σ _ hstrip', h σ lc hstrip, List.foldl_append]

/-- The dumper has a sequence of blocks. -/
def HasBlocks (strip : Bool) (d : Dumper) : Prop := ∃ blocks, Dumps strip d blocks

theorem HasBlocks.seq (h : HasBlocks strip d) (h' : HasBlocks strip d') :
    HasBlocks strip (fun σ lc => d' σ (d σ lc)) := by
  obtain ⟨blocks, h⟩ := h
  obtain ⟨blocks', h'⟩ := h'
  exact ⟨blocks ++ blocks', h.seq h'⟩

theorem hasBlocks_var (b : Bytes) : HasBlocks strip (fun _ => dumpVar b) := ⟨[b], dumps_var b⟩

theorem hasBlocks_each {α : Type} (dump : (σ : Type) → α → LuaCompiler σ → LuaCompiler σ) (as : List α)
    (h : ∀ a ∈ as, HasBlocks strip (fun σ => dump σ a)) : HasBlocks strip (fun σ => dumpEach (dump σ) as) := by
  induction as with
  | nil => exact ⟨[], dumps_id⟩
  | cons a as ih => exact (h a (.head _)).seq (ih fun a' ha' => h a' (.tail _ ha'))

end Rules

section Functions

variable (L : Layout) (strip : Bool)

theorem hasBlocks_int (x : Int) : HasBlocks strip (fun _ => dumpInt L x) := hasBlocks_var _

theorem hasBlocks_string (s : Option Bytes) : HasBlocks strip (fun _ => dumpString L s) := by
  cases s with
  | none => exact hasBlocks_var _
  | some s => exact (hasBlocks_var _).seq ⟨_, dumps_block _⟩

theorem hasBlocks_vector (elements : List Bytes) : HasBlocks strip (fun _ => dumpVector L elements) :=
  (hasBlocks_var _).seq ⟨_, dumps_block _⟩

theorem hasBlocks_constant (o : TValue) : HasBlocks strip (fun _ => dumpConstant L o) := by
  cases o with
  | nil => exact hasBlocks_var _
  | boolean b => exact (hasBlocks_var _).seq (hasBlocks_var _)
  | number n => exact (hasBlocks_var _).seq (hasBlocks_var _)
  | string s => exact (hasBlocks_var _).seq (hasBlocks_string L strip (some s))

theorem hasBlocks_upvalues (f : Proto) : HasBlocks strip (fun _ => dumpUpvalues L f) := by
  refine (hasBlocks_var _).seq (hasBlocks_each (fun _ => dumpUpvalue) f.upvalues fun u _ => ?_)
  exact (hasBlocks_var _).seq (hasBlocks_var _)

theorem hasBlocks_debug (f : Proto) : HasBlocks strip (fun _ => dumpDebug L f) := by
  have hlocvar : ∀ v, HasBlocks strip (fun _ => dumpLocVar L v) := by
    intro v
    exact ((hasBlocks_string L strip v.varname).seq (hasBlocks_int L strip _)).seq (hasBlocks_int L strip _)
  have hnames : ∀ upvalues : List Upvaldesc,
      HasBlocks strip (fun _ => dumpEach (fun u => dumpString L u.name) upvalues) :=
    fun upvalues => hasBlocks_each (fun _ u => dumpString L u.name) upvalues fun u _ => hasBlocks_string L strip u.name
  have hsource := hasBlocks_string L strip (if strip then none else f.source)
  have hlineinfo := hasBlocks_vector L strip ((if strip then [] else f.lineinfo).map L.intBytes)
  have hlocvars := (hasBlocks_int L strip (if strip then [] else f.locvars).length).seq
    (hasBlocks_each (fun _ => dumpLocVar L) (if strip then [] else f.locvars) fun v _ => hlocvar v)
  have hupvalues := (hasBlocks_int L strip (if strip then [] else f.upvalues).length).seq
    (hnames (if strip then [] else f.upvalues))
  obtain ⟨blocks, h⟩ := ((hsource.seq hlineinfo).seq hlocvars).seq hupvalues
  refine ⟨blocks, fun σ lc hstrip => ?_⟩
  subst hstrip
  exact h σ lc rfl

/-- By induction on the tree. -/
theorem hasBlocks_function (f : Proto) : HasBlocks strip (fun _ => dumpFunction L f) := by
  have hfunctions : ∀ fs : List Proto, (∀ f ∈ fs, HasBlocks strip (fun _ => dumpFunction L f)) →
      HasBlocks strip (fun _ => dumpFunctions L fs) := by
    intro fs
    induction fs with
    | nil => exact fun _ => ⟨[], fun _ _ _ => rfl⟩
    | cons f fs ih => exact fun h => (h f (.head _)).seq (ih fun g hg => h g (.tail _ hg))
  induction f using Proto.induction with
  | h f ih =>
    have hconstants := ((hasBlocks_int L strip f.k.length).seq
      (hasBlocks_each (fun _ => dumpConstant L) f.k fun o _ => hasBlocks_constant L strip o)).seq
      ((hasBlocks_int L strip f.p.length).seq (hfunctions f.p ih))
    have hhead := (((hasBlocks_int L strip f.linedefined).seq (hasBlocks_int L strip f.lastlinedefined)).seq
      (hasBlocks_var [UInt8.ofInt f.numparams.toNat])).seq ((hasBlocks_var [UInt8.ofInt f.isVararg.toNat]).seq
      (hasBlocks_var [UInt8.ofInt f.maxstacksize.toNat]))
    obtain ⟨blocks, h⟩ := (((hhead.seq (hasBlocks_vector L strip _)).seq hconstants).seq
      (hasBlocks_upvalues L strip f)).seq (hasBlocks_debug L strip f)
    refine ⟨blocks, fun σ lc hstrip => ?_⟩
    show dumpFunction L f lc = _
    rw [dumpFunction_eq]
    exact h σ lc hstrip

end Functions

/-! ### Any writer -/

section Writers

variable {σ : Type}

/-- After a failure nothing is written. -/
theorem foldl_of_failed {lc : LuaCompiler σ} (h : lc.mStatus ≠ 0) (blocks : List Bytes) :
    blocks.foldl (fun lc b => dumpBlock b lc) lc = lc := by
  induction blocks with
  | nil => rfl
  | cons b blocks ih =>
    have hblock : dumpBlock b lc = lc := if_neg h
    rw [List.foldl_cons, hblock, ih]

/-- Blocks are passed until the first one that is refused. -/
theorem foldl_dumpBlock (w : Writer σ) (strip : Bool) (data : σ) (blocks : List Bytes) :
    blocks.foldl (fun lc b => dumpBlock b lc) { mWriter := w, mData := data, mStrip := strip, mStatus := 0 } =
      { mWriter := w, mData := feed w data (taken w 0 data blocks), mStrip := strip
        mStatus := outcome w 0 data blocks } := by
  induction blocks generalizing data with
  | nil => rfl
  | cons b blocks ih =>
    have hblock : dumpBlock b { mWriter := w, mData := data, mStrip := strip, mStatus := 0 } =
        { mWriter := w, mData := (w data b).2, mStrip := strip, mStatus := (w data b).1 } := if_pos rfl
    rw [List.foldl_cons, hblock, taken, outcome]
    by_cases hok : (w data b).1 = 0
    · rw [if_pos hok, if_pos hok, hok, ih]
      rfl
    · rw [if_neg hok, if_neg hok, foldl_of_failed hok]
      rfl

/-- What `compile` does with any writer, when the blocks of the function are known. -/
theorem compile_of_blocks {L : Layout} {strip : Bool} {f : Proto} {blocks : List Bytes} (h : Dumps strip (fun _ => dumpFunction L f) blocks) (lc : LuaCompiler σ)
    (w : Writer σ) (data : σ) :
    lc.compile L f w data strip = (outcome w 0 data (header L :: blocks),
      { mWriter := w, mData := feed w data (taken w 0 data (header L :: blocks)), mStrip := strip
        mStatus := outcome w 0 data (header L :: blocks) }) := by
  have hheader : Dumps strip (fun _ => dumpHeader L) [header L] := dumps_block _
  have hfold := hheader.seq h σ { mWriter := w, mData := data, mStrip := strip, mStatus := 0 } rfl
  rw [foldl_dumpBlock] at hfold
  beta_reduce at hfold
  rw [compile, hfold]
  rfl

end Writers

/-! ### The processor's writer -/

theorem feed_writer (data : Bytes) (blocks : List Bytes) : feed writer data blocks = data ++ blocks.flatten := by
  induction blocks generalizing data with
  | nil => rw [List.flatten_nil, List.append_nil]; rfl
  | cons b blocks ih =>
    have hblock : feed writer data (b :: blocks) = feed writer (data ++ b) blocks := rfl
    rw [hblock, ih, List.flatten_cons, List.append_assoc]

/-- The buffer holds the header and the blocks of the function. -/
theorem compile_of_dumps {L : Layout} {strip : Bool} {f : Proto} {blocks : List Bytes}
    (h : Dumps strip (fun _ => dumpFunction L f) blocks) (lc : LuaCompiler Bytes) :
    lc.compile L f writer [] strip =
      (0, { mWriter := writer, mData := header L ++ blocks.flatten, mStrip := strip, mStatus := 0 }) := by
  have hok : ∀ (data b : Bytes), (writer data b).1 = 0 := fun _ _ => rfl
  rw [compile_of_blocks h, outcome_of_ok hok, taken_of_ok hok, feed_writer, List.nil_append, List.flatten_cons]

theorem length_header (L : Layout) : (header L).length = luacHeaderSize := by
  simp [header, luacHeaderSize, luaSignature, luacTail]

/-- Every function is compiled without an error, to a chunk that is not empty. -/
theorem compile_writer (L : Layout) (strip : Bool) (f : Proto) (lc : LuaCompiler Bytes) :
    (lc.compile L f writer [] strip).1 = 0 ∧ (lc.compile L f writer [] strip).2.mData ≠ [] := by
  obtain ⟨blocks, h⟩ := hasBlocks_function L strip f
  rw [compile_of_dumps h]
  refine ⟨rfl, fun hnil => ?_⟩
  have hlen := congrArg List.length hnil
  rw [List.length_append, length_header, List.length_nil] at hlen
  have hpos : 0 < luacHeaderSize := by decide
  omega

end MetaEditor
