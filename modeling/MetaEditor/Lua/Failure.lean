import MetaEditor.Lua.Blocks

/-!
# A writer that fails

`compile` goes on through the whole tree after the writer has answered a status that is not zero, but no
block is passed to the writer any more. So the writer gets the blocks of the full dump up to the first one
that it refuses, and `compile` answers the status of that one.
-/

namespace MetaEditor

open Lib LuaCompiler

/-- The writer, with a record of the blocks that it is passed. -/
def recorded {σ : Type} (w : Writer σ) : Writer (σ × List Bytes) :=
  fun s chunk => ((w s.1 chunk).1, (w s.1 chunk).2, s.2 ++ [chunk])

/-- A writer that takes every block. -/
def accepting : Writer Unit := fun _ _ => (0, ())

/-- The blocks that `compile` passes to a writer that takes them all. -/
def fullDump (L : Layout) (strip : Bool) (f : Proto) : List Bytes :=
  (compile L { mWriter := recorded accepting, mData := ((), []), mStrip := strip, mStatus := 0 } f (recorded accepting)
    ((), []) strip).2.mData.2

section Record

variable {σ : Type} (w : Writer σ)

/-- The record has the blocks, and does not change what the writer does. -/
theorem feed_recorded (data : σ) (record blocks : List Bytes) :
    feed (recorded w) (data, record) blocks = (feed w data blocks, record ++ blocks) := by
  induction blocks generalizing data record with
  | nil => simp [feed]
  | cons b blocks ih =>
    have hstep : feed (recorded w) (data, record) (b :: blocks) =
        feed (recorded w) ((w data b).2, record ++ [b]) blocks := rfl
    rw [hstep, ih, List.append_assoc]
    rfl

theorem taken_recorded (data : σ) (record blocks : List Bytes) :
    taken (recorded w) 0 (data, record) blocks = taken w 0 data blocks ∧
      outcome (recorded w) 0 (data, record) blocks = outcome w 0 data blocks := by
  induction blocks generalizing data record with
  | nil => exact ⟨rfl, rfl⟩
  | cons b blocks ih =>
    obtain ⟨htaken, hout⟩ := ih (w data b).2 (record ++ [b])
    have hnext : recorded w (data, record) b = ((w data b).1, (w data b).2, record ++ [b]) := rfl
    rw [taken, taken, outcome, outcome, hnext, htaken, hout]
    exact ⟨rfl, rfl⟩

end Record

section Compile

variable {σ : Type} {L : Layout} {strip : Bool} {f : Proto}

theorem fullDump_eq {blocks : List Bytes} (h : Dumps strip (fun _ => dumpFunction L f) blocks) :
    fullDump L strip f = header L :: blocks := by
  have hall : taken accepting 0 () (header L :: blocks) = header L :: blocks := taken_of_ok (fun _ _ => rfl) _ _
  rw [fullDump, compile_of_blocks h, (taken_recorded accepting () [] _).1, feed_recorded, hall]
  rfl

/-- The blocks of the full dump, one behind the other, are the compiled chunk. -/
theorem flatten_fullDump (L : Layout) (strip : Bool) (f : Proto) (lc : LuaCompiler Bytes) :
    (fullDump L strip f).flatten = (lc.compile L f writer [] strip).2.mData := by
  obtain ⟨blocks, h⟩ := hasBlocks_function L strip f
  rw [fullDump_eq h, compile_of_dumps h, List.flatten_cons]

/-- The writer is passed the full dump up to the first block that it refuses, and `compile` answers the
status of that block, or 0; and the record of the blocks is all that tells the two writers apart. -/
theorem compile_sticky (L : Layout) (strip : Bool) (f : Proto) (w : Writer σ) (data : σ)
    (lc : LuaCompiler (σ × List Bytes)) (lc' : LuaCompiler σ) :
    let blocks := fullDump L strip f
    let result := lc.compile L f (recorded w) (data, []) strip
    let passed := result.2.mData.2
    (result.1 = 0 ∧ passed = blocks ∧ (∀ k < blocks.length, statusAt w data blocks k = some 0) ∨
      ∃ k < blocks.length, result.1 ≠ 0 ∧ passed = blocks.take (k + 1) ∧ statusAt w data blocks k = some result.1 ∧
        ∀ j < k, statusAt w data blocks j = some 0) ∧
    (lc'.compile L f w data strip).1 = result.1 ∧ (lc'.compile L f w data strip).2.mData = result.2.mData.1 := by
  obtain ⟨blocks, h⟩ := hasBlocks_function L strip f
  obtain ⟨htaken, hout⟩ := taken_recorded w data [] (header L :: blocks)
  intro blocks' result passed
  have hresult : result.1 = outcome w 0 data (header L :: blocks) := by
    rw [← hout]
    exact congrArg Prod.fst (compile_of_blocks h lc (recorded w) (data, []))
  have hdata : result.2.mData =
      (feed w data (taken w 0 data (header L :: blocks)), taken w 0 data (header L :: blocks)) := by
    have hcompile := congrArg (fun r => r.2.mData) (compile_of_blocks h lc (recorded w) (data, []))
    rw [htaken, feed_recorded] at hcompile
    exact hcompile
  have hpassed : passed = taken w 0 data (header L :: blocks) := congrArg Prod.snd hdata
  have hblocks : blocks' = header L :: blocks := fullDump_eq h
  rw [hblocks, hpassed, hresult, hdata, compile_of_blocks h]
  refine ⟨?_, rfl, rfl⟩
  rcases taken_cases w 0 data (header L :: blocks) with ⟨hall, hzero, hstatus⟩ | ⟨k, hk, hprefix, hne, hstatus, hbefore⟩
  · exact .inl ⟨hzero, hall, hstatus⟩
  · exact .inr ⟨k, hk, hne, hprefix, hstatus, hbefore⟩

end Compile

end MetaEditor
