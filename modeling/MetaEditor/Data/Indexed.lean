import MetaEditor.Data.Step

/-!
# Positions are indices

In every reachable state `mPosition` is the index of a field in its line, so the loops that shift
"the fields after this one" start right after it. `getElem?_edit` reads a line after such an edit.
-/

namespace MetaEditor

open Lib

theorem Line.getElem?_shiftFrom (start : Nat) (shift : Field → Field) (fields : List Field) (j : Nat) :
    (shiftFrom start shift fields)[j]? = fields[j]?.map fun o => if start ≤ j then shift o else o := by
  rw [shiftFrom, List.getElem?_mapIdx]

theorem Line.map_shiftFrom {γ : Type*} {g : Field → γ} {shift : Field → Field}
    (hg : ∀ f, g (shift f) = g f) (start : Nat) (fields : List Field) :
    (shiftFrom start shift fields).map g = fields.map g := by
  apply List.ext_getElem?
  intro j
  rw [List.getElem?_map, List.getElem?_map, getElem?_shiftFrom, Option.map_map]
  congr 1
  funext o
  simp only [Function.comp_apply]
  split_ifs
  · exact hg o
  · rfl

/-- A line after an edit at index `i`: the fields before it as they were, the edited field, the fields
after it shifted. -/
theorem Line.getElem?_edit {fields : List Field} {shift : Field → Field} {i j : Nat} {f' g : Field}
    (hi : i < fields.length) :
    (shiftFrom (i + 1) shift (fields.set i f'))[j]? = some g ↔
      (j < i ∧ fields[j]? = some g) ∨ (j = i ∧ g = f') ∨
        (i < j ∧ ∃ o, fields[j]? = some o ∧ g = shift o) := by
  rw [getElem?_shiftFrom]
  rcases Nat.lt_trichotomy j i with hlt | rfl | hlt
  · have hshift : ¬i + 1 ≤ j := by omega
    rw [List.getElem?_set_ne (by omega)]
    simp [hshift, hlt, hlt.ne, hlt.not_gt]
  · have hshift : ¬j + 1 ≤ j := by omega
    rw [List.getElem?_set_self hi]
    simp [hshift, eq_comm]
  · have hshift : i + 1 ≤ j := by omega
    rw [List.getElem?_set_ne (by omega)]
    simp [hshift, hlt, hlt.ne', hlt.not_gt, eq_comm]

/-- An edit of the field between `before` and `after`. -/
theorem Line.edit_middle (before after : List Field) (f f' : Field) (shift : Field → Field) :
    shiftFrom (before.length + 1) shift ((before ++ f :: after).set before.length f') =
      before ++ f' :: after.map shift := by
  have hset : (before ++ f :: after).set before.length f' = before ++ f' :: after := by
    rw [List.set_append_right _ _ (le_refl _), Nat.sub_self, List.set_cons_zero]
  apply List.ext_getElem?
  intro j
  rw [hset, getElem?_shiftFrom]
  rcases Nat.lt_trichotomy j before.length with hlt | rfl | hgt
  · rw [List.getElem?_append_left hlt, List.getElem?_append_left hlt]
    simp [show ¬before.length + 1 ≤ j by omega]
  · rw [List.getElem?_append_right (le_refl _), List.getElem?_append_right (le_refl _)]
    simp
  · obtain ⟨k, rfl⟩ := Nat.exists_eq_add_of_lt hgt
    rw [List.getElem?_append_right (by omega), List.getElem?_append_right (by omega),
      show before.length + k + 1 - before.length = k + 1 by omega, List.getElem?_cons_succ,
      List.getElem?_cons_succ, List.getElem?_map]
    simp

/-- A line after a field is added to its end. -/
theorem getElem?_concat {fields : List Field} {f' g : Field} {j : Nat} :
    (fields ++ [f'])[j]? = some g ↔ fields[j]? = some g ∨ (j = fields.length ∧ g = f') := by
  rcases Nat.lt_trichotomy j fields.length with hlt | rfl | hlt
  · rw [List.getElem?_append_left hlt]
    simp [hlt.ne]
  · rw [List.getElem?_concat_length]
    simp [eq_comm]
  · rw [List.getElem?_eq_none (by simp; omega), List.getElem?_eq_none (by omega)]
    simp [hlt.ne']

/-- Every field stands at its position. -/
def Indexed (fields : List Field) : Prop := ∀ (i : Nat) f, fields[i]? = some f → f.mPosition = i

namespace LineManager

theorem indexed_fieldsStep {op : Op} {fields after : List Field} (h : Indexed fields)
    (hstep : FieldsStep op fields after) : Indexed after := by
  intro j g hg
  cases hstep with
  | @typed _ _ _ _ i f hfirst _ _ =>
    have hpos := h i f hfirst.get
    rw [hpos, Line.getElem?_edit hfirst.lt] at hg
    rcases hg with ⟨-, hg⟩ | ⟨rfl, rfl⟩ | ⟨-, o, ho, rfl⟩
    · exact h j g hg
    · exact hpos
    · exact h j o ho
  | created _ =>
    rcases getElem?_concat.mp hg with hg | ⟨rfl, rfl⟩
    · exact h j g hg
    · rfl
  | added _ _ =>
    rcases getElem?_concat.mp hg with hg | ⟨rfl, rfl⟩
    · exact h j g hg
    · rfl
  | @removed _ _ _ i f hfirst _ =>
    have hpos := h i f hfirst.get
    rw [hpos, Line.getElem?_edit hfirst.lt] at hg
    rcases hg with ⟨-, hg⟩ | ⟨rfl, rfl⟩ | ⟨-, o, ho, rfl⟩
    · exact h j g hg
    · exact hpos
    · exact h j o ho

/-- Positions are indices in every reachable state. -/
theorem indexed_run (ops : List Op) (line : UInt32) : Indexed ((run step empty ops).fields line) :=
  fields_run_inv Indexed (by simp [Indexed]) (fun _ _ _ => indexed_fieldsStep) ops line

end LineManager

end MetaEditor
