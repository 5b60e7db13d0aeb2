import MetaEditor.Data.Dump
import MetaEditor.Lib.Local

/-!
# Work on several lines

An operation on one line neither reads nor changes another one. So the structure is made of its lines: each is what
the operations on it make of it, in their order, and operations on different lines can be interleaved in any way.
-/

namespace MetaEditor

open Lib

namespace LineManager

/-- The structure with one line, or without any. -/
def alone (line : UInt32) (entry : Option Line) : LineManager :=
  match entry with
  | none => empty
  | some ptr => empty.write line ptr

/-- What an operation makes of its line. -/
def lineStep (entry : Option Line) (op : Op) : Option Line := ((alone op.line entry).step op).get? op.line

@[simp] theorem get?_alone (line : UInt32) (entry : Option Line) : (alone line entry).get? line = entry := by
  cases entry with
  | none => exact get?_empty line
  | some ptr => exact (get?_write _ _ _ _).trans (if_pos rfl)

@[simp] theorem get?_write_self (lm : LineManager) (line : UInt32) (ptr : Line) : (lm.write line ptr).get? line = some ptr :=
  (get?_write _ _ _ _).trans (if_pos rfl)

theorem get?_step_of_ne {lm : LineManager} {op : Op} {line : UInt32} (h : op.line ≠ line) :
    (lm.step op).get? line = lm.get? line := by
  rcases lm.step_writes op with hsame | ⟨after, hwrite, -⟩
  · rw [hsame]
  · rw [hwrite, get?_write, if_neg h]

section Congr

variable {lm lm' : LineManager} {line : UInt32}

theorem fields_congr (h : lm.get? line = lm'.get? line) : lm.fields line = lm'.fields line := by
  rw [fields, fields, h]

theorem lineFor_congr (h : lm.get? line = lm'.get? line) : lm.lineFor line = lm'.lineFor line := by
  rw [lineFor, lineFor, h]

/-- An operation finds the same field in both structures, and writes the same line. -/
theorem get?_step_congr {op : Op} (h : lm.get? op.line = lm'.get? op.line) :
    (lm.step op).get? op.line = (lm'.step op).get? op.line := by
  have hfields := fields_congr h
  have hline := lineFor_congr h
  have hadd : ∀ {type : FieldType} {str : Bytes} {col : UInt32}, op.adds = some (type, str, col) →
      (lm.step op).get? op.line = (lm'.step op).get? op.line := by
    intro type str col hop
    rcases step_of_adds lm hop with ⟨i, f, hfirst, hsame⟩ | ⟨hnone, hpush⟩ <;>
      rcases step_of_adds lm' hop with ⟨j, g, hfirst', hsame'⟩ | ⟨hnone', hpush'⟩
    · rw [hsame, hsame', h]
    · exact absurd (hfields ▸ hnone') hfirst.not_outside
    · exact absurd (hfields ▸ hnone) hfirst'.not_outside
    · rw [hpush, hpush', get?_write_self, get?_write_self, hline, hfields]
  cases op with
  | eventFilter col line c =>
    change lm.get? line = lm'.get? line at h
    change lm.fields line = lm'.fields line at hfields
    change lm.lineFor line = lm'.lineFor line at hline
    show (lm.step (.eventFilter col line c)).get? line = (lm'.step (.eventFilter col line c)).get? line
    rcases lm.eventFilter_cases col line c with ⟨i, f, hfirst, htitle, hcall⟩ | ⟨i, f, hfirst, htype, hle, hcall⟩ |
      ⟨i, f, hfirst, htype, hlt, hcall⟩ | ⟨hnone, hcall⟩ <;> rw [step_of_eventFilter hcall]
    · rw [step_of_eventFilter (eventFilter_of_title (hfields ▸ hfirst) htitle), h]
    · rw [step_of_eventFilter (eventFilter_of_le (hfields ▸ hfirst) htype hle), get?_write_self, get?_write_self, hline, hfields]
    · rw [step_of_eventFilter (eventFilter_of_lt (hfields ▸ hfirst) htype hlt), h]
    · rw [step_of_eventFilter (eventFilter_of_outside (hfields ▸ hnone)), get?_write_self, get?_write_self, hline, hfields]
  | addTitle str col line | addName str col line => exact hadd rfl
  | removeCharacter col line =>
    change lm.get? line = lm'.get? line at h
    change lm.fields line = lm'.fields line at hfields
    change lm.lineFor line = lm'.lineFor line at hline
    show (lm.step (.removeCharacter col line)).get? line = (lm'.step (.removeCharacter col line)).get? line
    have hcalled : ∀ {lm lm'' : LineManager}, lm.removeCharacter col line = .ok lm'' →
        lm.step (.removeCharacter col line) = lm'' := fun hcall => step_of_apply hcall
    by_cases hnone : ∀ g ∈ lm.fields line, g.atRange col = false
    · rw [hcalled (removeCharacter_of_outside hnone), hcalled (removeCharacter_of_outside (hfields ▸ hnone)), h]
    · obtain ⟨i, f, hfirst⟩ := exists_firstAt hnone
      by_cases hle : (col - 1 - f.mStart).toNat ≤ f.mInfo.length
      · rw [hcalled (removeCharacter_of_le hfirst hle), hcalled (removeCharacter_of_le (hfields ▸ hfirst) hle),
          get?_write_self, get?_write_self, hline, hfields]
      · have hlt := not_le.mp hle
        rw [hcalled (removeCharacter_of_lt hfirst hlt), hcalled (removeCharacter_of_lt (hfields ▸ hfirst) hlt), h]

end Congr

/-- The structure is made of its lines. -/
theorem local_step : Local step (fun _ => Op.line) get? lineStep where
  others _ _ _ h := get?_step_of_ne h
  own lm op := get?_step_congr (get?_alone op.line (lm.get? op.line)).symm

theorem ext_get? {lm lm' : LineManager} (h : ∀ line, lm.get? line = lm'.get? line) : lm = lm' := by
  obtain ⟨lines⟩ := lm
  obtain ⟨lines'⟩ := lm'
  refine congrArg LineManager.mk (Std.ExtTreeMap.ext_getElem? fun key => ?_)
  exact h key.toUInt32

/-- Two series with the same operations on every line, each in its order, lead to the same structure: however
work on different lines is interleaved makes no difference. -/
theorem run_interleaved {ops ops' : List Op}
    (h : ∀ line, ops.filter (·.line = line) = ops'.filter (·.line = line)) (lm : LineManager) :
    run step lm ops = run step lm ops' := ext_get? fun line => local_step.view_run_congr h lm line

theorem run_interleaved_twoLines :
    run step empty [.addName [0x61] 0 0, .eventFilter 3 1 0x62, .removeCharacter 1 0] =
      run step empty [.eventFilter 3 1 0x62, .addName [0x61] 0 0, .removeCharacter 1 0] := by
  refine run_interleaved (fun line => ?_) empty
  by_cases hzero : line = 0
  · rw [hzero]
    rfl
  · have hother : ∀ op : Op, op.line = 0 → ∀ ops : List Op, (op :: ops).filter (·.line = line) = ops.filter (·.line = line) :=
      fun op hop ops => List.filter_cons_of_neg (by simpa [hop] using Ne.symm hzero)
    have hname := hother (.addName [0x61] 0 0) rfl
    have hremove := hother (.removeCharacter 1 0) rfl
    simp only [hname, hremove, List.filter_cons]

end LineManager

end MetaEditor
