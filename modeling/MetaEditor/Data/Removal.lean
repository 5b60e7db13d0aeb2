import MetaEditor.Data.Keystroke

/-!
# A removal is all or nothing

`removeCharacter` asks for the byte before the column, at an `unsigned int` offset. In the first column
of a field the offset is `2 ^ 32 - 1`, past the end of any text that is reached, and `std::string::erase`
throws before anything was written. In every other column of a field the offset is below the length of
its text, because the columns of a field are at most its bytes (`Reachable.widthLe`).
-/

namespace MetaEditor

open Lib

namespace LineManager

/-- In the first column of a field there is nothing to remove. -/
theorem removeCharacter_first {lm : LineManager} {col line : UInt32} (htext : TextBelow (2 ^ 32 - 1) lm)
    (h : ∀ i f, FirstAt (lm.fields line) col i f → col = f.mStart) : lm.removeCharacter col line = .ok lm := by
  rcases lm.removeCharacter_cases col line with ⟨hcall, -⟩ | ⟨i, f, hfirst, hle, -⟩
  · exact hcall
  · have hlength := htext line f hfirst.mem
    exact absurd (h i f hfirst) (Field.ne_start_of_le hle (by omega))

/-- Exactly one byte less: the one before column `col`, out of the field `f` at index `i` of the line. -/
structure OneByteLess (lm lm' : LineManager) (col line : UInt32) (i : Nat) (f : Field) : Prop where
  others : ∀ line', line' ≠ line → lm'.get? line' = lm.get? line'
  number : (lm'.get? line).map Line.mNumber = (lm.get? line).map Line.mNumber
  offset : (col - 1 - f.mStart).toNat < f.mInfo.length
  fields : lm'.fields line = (lm.fields line).mapIdx fun j o =>
    if j < i then o
    else if j = i then { o with mInfo := o.mInfo.eraseIdx (col - 1 - f.mStart).toNat, mEnd := o.mEnd - 1 }
    else { o with mStart := o.mStart - 1, mEnd := o.mEnd - 1 }

/-- The calls that find nothing to remove. -/
def NothingBefore (lm : LineManager) (col line : UInt32) : Prop :=
  lm.get? line = none ∨ (∀ g ∈ lm.fields line, g.atRange col = false) ∨
    ∃ i f, FirstAt (lm.fields line) col i f ∧ col = f.mStart

theorem fields_removed {fields : List Field} {i : Nat} {f : Field} (hf : fields[i]? = some f) (pos : UInt32) :
    Line.shiftFrom (i + 1) Field.shiftLeft (fields.set i (f.withoutChar pos)) =
      fields.mapIdx fun j o =>
        if j < i then o
        else if j = i then { o with mInfo := o.mInfo.eraseIdx (pos - f.mStart).toNat, mEnd := o.mEnd - 1 }
        else { o with mStart := o.mStart - 1, mEnd := o.mEnd - 1 } := by
  apply List.ext_getElem?
  intro j
  rw [Line.getElem?_shiftFrom, List.getElem?_mapIdx]
  rcases Nat.lt_trichotomy j i with hlt | rfl | hlt
  · rw [List.getElem?_set_ne hlt.ne']
    simp [hlt, show ¬i + 1 ≤ j by omega]
  · rw [List.getElem?_set_self (List.getElem?_eq_some_iff.mp hf).1, hf]
    simp [Field.withoutChar, List.eraseIdx_eq_take_drop_succ]
  · rw [List.getElem?_set_ne hlt.ne]
    simp [hlt.not_gt, hlt.ne', Nat.succ_le_of_lt hlt, Field.shiftLeft]

/-- A removal in a reachable state erases a byte or finds nothing before the column. -/
theorem Reachable.removeCharacter_cases {lm : LineManager} (h : Reachable lm) (col line : UInt32) :
    (NothingBefore lm col line ∧ lm.removeCharacter col line = .ok lm) ∨
    ∃ lm' i f, lm.removeCharacter col line = .ok lm' ∧ FirstAt (lm.fields line) col i f ∧ col ≠ f.mStart ∧
      OneByteLess lm lm' col line i f := by
  rcases lm.removeCharacter_cases col line with ⟨hcall, hpast⟩ | ⟨i, f, hfirst, hle, hcall⟩
  · refine .inl ⟨?_, hcall⟩
    by_cases hnone : ∀ g ∈ lm.fields line, g.atRange col = false
    · exact .inr (.inl hnone)
    · obtain ⟨i, f, hfirst⟩ := exists_firstAt hnone
      refine .inr (.inr ⟨i, f, hfirst, ?_⟩)
      by_contra hne
      have hoff := Field.offset_later hfirst.inRange hne
      have hbytes := h.offset_le hfirst
      have hlt := hpast i f hfirst
      omega
  · have hsize := h.textBelow line f hfirst.mem
    have hne : col ≠ f.mStart := Field.ne_start_of_le hle (by omega)
    have hoff := Field.offset_later hfirst.inRange hne
    have hbytes := h.offset_le hfirst
    refine .inr ⟨_, i, f, hcall, hfirst, hne, fun line' hline => get?_write_of_ne hline _, ?_, by omega, ?_⟩
    · obtain ⟨ptr, hget, -⟩ := exists_line hfirst
      rw [get?_write, if_pos rfl, lineFor_of_get? hget, hget]
      rfl
    · have hpos : f.mPosition = i := h.indexed line i f hfirst.get
      rw [fields_write_self, Line.setFields_mFields, hpos]
      exact fields_removed hfirst.get _

theorem NothingBefore.not_removed {lm : LineManager} {col line : UInt32} {i : Nat} {f : Field}
    (h : NothingBefore lm col line) (hfirst : FirstAt (lm.fields line) col i f) : col = f.mStart := by
  rcases h with hget | hnone | ⟨j, g, hg, hstart⟩
  · exact absurd hget (get?_ne_none_of_mem hfirst.mem)
  · exact absurd hnone hfirst.not_outside
  · obtain ⟨-, rfl⟩ := hfirst.unique hg
    exact hstart

/-- A byte less is a change. -/
theorem OneByteLess.ne {lm lm' : LineManager} {col line : UInt32} {i : Nat} {f : Field}
    (h : OneByteLess lm lm' col line i f) (hf : (lm.fields line)[i]? = some f) : lm' ≠ lm := by
  rintro rfl
  have hget := congrArg (·[i]?) h.fields
  simp only [List.getElem?_mapIdx, hf, Option.map_some, lt_irrefl, if_false, if_true, Option.some.injEq] at hget
  have hlen := congrArg (fun g => g.mInfo.length) hget
  have hoff := h.offset
  rw [List.length_eraseIdx_of_lt hoff] at hlen
  omega

/-- In every reachable state a call of `removeCharacter` returns. It leaves the whole state as it is
exactly when there is nothing before the column, and else takes exactly that byte out. -/
theorem removeCharacter_atomic {lm : LineManager} (h : Reachable lm) (col line : UInt32) :
    ∃ lm', lm.removeCharacter col line = .ok lm' ∧ (lm' = lm ↔ NothingBefore lm col line) ∧
      (lm' ≠ lm → ∃ i f, FirstAt (lm.fields line) col i f ∧ OneByteLess lm lm' col line i f) := by
  rcases h.removeCharacter_cases col line with ⟨hnothing, hcall⟩ | ⟨lm', i, f, hcall, hfirst, hne, hless⟩
  · exact ⟨lm, hcall, iff_of_true rfl hnothing, fun hchange => absurd rfl hchange⟩
  · have hchange := hless.ne hfirst.get
    have hsomething : ¬NothingBefore lm col line := fun hnothing => hne (hnothing.not_removed hfirst)
    exact ⟨lm', hcall, iff_of_false hchange hsomething, fun _ => ⟨i, f, hfirst, hless⟩⟩

/-- A multi-byte name, and the byte before its last column. -/
theorem removeCharacter_atomic_name :
    let lm := empty.step (.addName [195, 169, 97] 4 2)
    ∃ lm', lm.removeCharacter 6 2 = .ok lm' ∧ (lm' = lm ↔ NothingBefore lm 6 2) ∧
      (lm' ≠ lm → ∃ i f, FirstAt (lm.fields 2) 6 i f ∧ OneByteLess lm lm' 6 2 i f) :=
  removeCharacter_atomic (reachable_addName (by decide) 4 2) 6 2

end LineManager

end MetaEditor
