import MetaEditor.Lua.Accepted

/-!
# Chunks as a code

A stripping dumper writes of a function what it writes of the stripped function. So a chunk is decided by the
function that is loaded from it, and of two chunks neither begins with the other unless they are equal.
-/

namespace MetaEditor

open Lib Undump LuaCompiler

/-- Two dumpers that write the same blocks when they strip. -/
def Alike (d d' : Dumper) : Prop := ∃ blocks, Dumps true d blocks ∧ Dumps true d' blocks

section Rules

variable {d d' e e' : Dumper}

theorem HasBlocks.alike (h : HasBlocks true d) (heq : ∀ σ (lc : LuaCompiler σ), lc.mStrip = true → d' σ lc = d σ lc) :
    Alike d d' := by
  obtain ⟨blocks, hd⟩ := h
  exact ⟨blocks, hd, fun σ lc hstrip => (heq σ lc hstrip).trans (hd σ lc hstrip)⟩

theorem Alike.seq (h : Alike d d') (h' : Alike e e') :
    Alike (fun σ lc => e σ (d σ lc)) (fun σ lc => e' σ (d' σ lc)) := by
  obtain ⟨blocks, hd, hd'⟩ := h
  obtain ⟨blocks', he, he'⟩ := h'
  exact ⟨blocks ++ blocks', hd.seq he, hd'.seq he'⟩

end Rules

section Functions

variable (L : Layout)

theorem alike_functions (fs : List Proto)
    (h : ∀ f ∈ fs, Alike (fun _ => dumpFunction L f) (fun _ => dumpFunction L f.stripped)) :
    Alike (fun _ => dumpFunctions L fs) (fun _ => dumpFunctions L (fs.map Proto.stripped)) := by
  induction fs with
  | nil => exact ⟨[], fun _ _ _ => rfl, fun _ _ _ => rfl⟩
  | cons f fs ih => exact (h f (.head _)).seq (ih fun g hg => h g (.tail _ hg))

/-- The names are not dumped with the upvalues. -/
theorem alike_upvalues {f g : Proto} (h : g.upvalues = f.upvalues.map Upvaldesc.unnamed) :
    Alike (fun _ => dumpUpvalues L f) (fun _ => dumpUpvalues L g) := by
  refine (hasBlocks_upvalues L true f).alike fun σ lc _ => ?_
  unfold dumpUpvalues dumpEach
  rw [h, List.length_map, List.foldl_map]
  rfl

/-- None of the debug information is dumped. -/
theorem alike_debug (f g : Proto) : Alike (fun _ => dumpDebug L f) (fun _ => dumpDebug L g) := by
  refine (hasBlocks_debug L true f).alike fun σ lc hstrip => ?_
  unfold dumpDebug
  simp only [hstrip, if_true]

/-- By induction on the tree. -/
theorem alike_stripped (f : Proto) : Alike (fun _ => dumpFunction L f) (fun _ => dumpFunction L f.stripped) := by
  induction f using Proto.induction with
  | h f ih =>
    have hsame : ∀ {d : Dumper}, HasBlocks true d → Alike d d := fun h => h.alike fun _ _ _ => rfl
    have hfields : f.stripped =
        { f with p := f.p.map Proto.stripped, upvalues := f.upvalues.map Upvaldesc.unnamed, source := none
                 lineinfo := [], locvars := [] } := dumped_eq true f
    have hconstants := ((hsame (hasBlocks_int L true f.k.length)).seq
      (hsame (hasBlocks_each (fun _ => dumpConstant L) f.k fun o _ => hasBlocks_constant L true o))).seq
      ((hsame (hasBlocks_int L true f.p.length)).seq (alike_functions L f.p ih))
    have hhead := hsame ((((hasBlocks_int L true f.linedefined).seq (hasBlocks_int L true f.lastlinedefined)).seq
      (hasBlocks_var [UInt8.ofInt f.numparams.toNat])).seq ((hasBlocks_var [UInt8.ofInt f.isVararg.toNat]).seq
      (hasBlocks_var [UInt8.ofInt f.maxstacksize.toNat])))
    obtain ⟨blocks, hd, hd'⟩ := (((hhead.seq (hsame (hasBlocks_vector L true (f.code.map L.instructionBytes)))).seq
      hconstants).seq (alike_upvalues L (g := f.stripped) (by rw [hfields]))).seq (alike_debug L f f.stripped)
    refine ⟨blocks, fun σ lc hstrip => ?_, fun σ lc hstrip => ?_⟩
    · show dumpFunction L f lc = _
      rw [dumpFunction_eq]
      exact hd σ lc hstrip
    · show dumpFunction L f.stripped lc = _
      rw [dumpFunction_eq, ← hd' σ lc hstrip, hfields]
      simp only [dumpConstants, List.length_map]
      rfl

end Functions

/-! ### Chunks -/

variable {L : Layout} {f g : Proto}

theorem compiled_stripped (L : Layout) (f : Proto) : compiled L true f.stripped = compiled L true f := by
  obtain ⟨blocks, hd, hd'⟩ := alike_stripped L f
  rw [compiled, compiled, compile_of_dumps hd, compile_of_dumps hd']

theorem compiled_dumped (L : Layout) (strip : Bool) (f : Proto) : compiled L strip (f.dumped strip) = compiled L strip f := by
  cases strip with
  | false => rfl
  | true => exact compiled_stripped L f

/-- Chunks are a prefix code for the functions that are loaded from them. -/
theorem compiled_prefixFree (hf : f.InRange L) (hg : g.InRange L) (strip : Bool) :
    (compiled L strip f <+: compiled L strip g ↔ compiled L strip f = compiled L strip g) ∧
      (compiled L strip f = compiled L strip g ↔ f.dumped strip = g.dumped strip) := by
  have hequal : f.dumped strip = g.dumped strip → compiled L strip f = compiled L strip g := by
    intro h
    rw [← compiled_dumped, h, compiled_dumped]
  have hloaded : compiled L strip f <+: compiled L strip g → f.dumped strip = g.dumped strip := by
    rintro ⟨more, hmore⟩
    have hboth := loadChunk_compiled hf strip "" more
    rw [hmore, ← List.append_nil (compiled L strip g), loadChunk_compiled hg strip "" []] at hboth
    simp only [Except.ok.injEq, Prod.mk.injEq] at hboth
    exact hboth.1.symm
  exact ⟨⟨fun h => hequal (hloaded h), fun h => by rw [h]⟩, ⟨fun h => hloaded (by rw [h]), hequal⟩⟩

theorem compiled_prefixFree_nested :
    (compiled layout64 true innerProto <+: compiled layout64 true outerProto ↔
        compiled layout64 true innerProto = compiled layout64 true outerProto) ∧
      (compiled layout64 true innerProto = compiled layout64 true outerProto ↔
        innerProto.dumped true = outerProto.dumped true) :=
  compiled_prefixFree innerProto_inRange outerProto_inRange true

end MetaEditor
