import MetaEditor.Data.Indexed
import MetaEditor.Editor.PlainEditor

/-!
# Titles in the structure

`removeCharacter` and `appendChar` change any field they are given. A title is safe because the filter
asks `isEditable` about the column it then removes at, `eventFilter` looks at the type of the field it
found, and both resolve a column to the same field: the first in creation order. Nothing is needed
about the ranges, which may overlap or wrap. A shift moves both ends of a title and keeps its width.
-/

namespace MetaEditor

open Lib

/-- A title that only moved. -/
structure SameTitle (f g : Field) : Prop where
  type : g.mType = .title
  info : g.mInfo = f.mInfo
  width : g.width = f.width

theorem sameTitle_shiftRight (f : Field) (h : f.mType = .title) : SameTitle f f.shiftRight :=
  ⟨h, rfl, f.width_shiftRight⟩

theorem sameTitle_shiftLeft (f : Field) (h : f.mType = .title) : SameTitle f f.shiftLeft :=
  ⟨h, rfl, f.width_shiftLeft⟩

/-- Every title is still a title at its index, with its text and its width. -/
def TitlesKept (before after : List Field) : Prop :=
  ∀ (i : Nat) f, before[i]? = some f → f.mType = .title → ∃ g, after[i]? = some g ∧ SameTitle f g

theorem TitlesKept.refl (fields : List Field) : TitlesKept fields fields :=
  fun _ f hf ht => ⟨f, hf, ht, rfl, rfl⟩

theorem TitlesKept.trans {before middle after : List Field} (h : TitlesKept before middle)
    (h' : TitlesKept middle after) : TitlesKept before after := by
  intro i f hf ht
  obtain ⟨g, hg, htype, hinfo, hwidth⟩ := h i f hf ht
  obtain ⟨k, hk, htype', hinfo', hwidth'⟩ := h' i g hg htype
  exact ⟨k, hk, htype', hinfo'.trans hinfo, hwidth'.trans hwidth⟩

/-- An edit of a field that is no title keeps the titles, wherever the shift begins. -/
theorem titlesKept_edit {fields : List Field} {shift : Field → Field} {i : Nat} {f : Field}
    (hshift : ∀ o, o.mType = .title → SameTitle o (shift o)) (hf : fields[i]? = some f) (hne : f.mType ≠ .title)
    (start : Nat) (f' : Field) : TitlesKept fields (Line.shiftFrom start shift (fields.set i f')) := by
  intro j g hg ht
  have hij : i ≠ j := by
    rintro rfl
    obtain rfl : f = g := Option.some.inj (hf.symm.trans hg)
    exact hne ht
  rw [Line.getElem?_shiftFrom, List.getElem?_set_ne hij, hg]
  by_cases hstart : start ≤ j
  · exact ⟨shift g, by simp [hstart], hshift g ht⟩
  · exact ⟨g, by simp [hstart], ht, rfl, rfl⟩

theorem titlesKept_concat (fields : List Field) (f : Field) : TitlesKept fields (fields ++ [f]) :=
  fun _ g hg ht => ⟨g, getElem?_concat.mpr (.inl hg), ht, rfl, rfl⟩

theorem titlesKept_fieldsStep {op : LineManager.Op} {before after : List Field}
    (hremove : ∀ col line, op = .removeCharacter col line → ∀ i f, FirstAt before col i f → f.mType ≠ .title)
    (h : LineManager.FieldsStep op before after) : TitlesKept before after := by
  cases h with
  | typed hfirst htype _ =>
    exact titlesKept_edit sameTitle_shiftRight hfirst.get htype _ _
  | created _ => exact titlesKept_concat _ _
  | added _ _ => exact titlesKept_concat _ _
  | @removed _ col line i f hfirst _ =>
    exact titlesKept_edit sameTitle_shiftLeft hfirst.get (hremove col line rfl i f hfirst) _ _

namespace PlainEditor

/-- A guarded operation keeps the titles of every line. -/
theorem titlesKept_guarded {lm : LineManager} {op : LineManager.Op} (hguard : Guarded lm op) (line : UInt32) :
    TitlesKept (lm.fields line) ((lm.step op).fields line) := by
  rcases lm.step_cases op with hstep | ⟨ptr, hstep, hfields⟩
  · rw [hstep]
    exact .refl _
  · rw [hstep]
    by_cases hline : op.line = line
    · subst hline
      rw [LineManager.fields_write_self]
      refine titlesKept_fieldsStep (fun col line hop i f hfirst => ?_) hfields
      subst hop
      exact LineManager.not_title_of_isEditable hguard hfirst
    · rw [LineManager.fields_write_of_ne hline]
      exact .refl _

theorem titlesKept_step (b : Build) (lm : LineManager) (input : Input) (line : UInt32) :
    TitlesKept (lm.fields line) ((step b lm input).fields line) := by
  cases hcall : handle b lm input with
  | error e =>
    rw [step, hcall]
    exact .refl _
  | ok lm' =>
    rw [step, hcall]
    have hop : lm' = lm ∨ ∃ op, Guarded lm op ∧ lm.apply op = .ok lm' := by
      cases input with
      | event v event =>
        cases hr : eventFilter b v lm event with
        | error e => simp [handle, hr, Except.map] at hcall
        | ok r =>
          obtain rfl : r.dataman = lm' := by simpa [handle, hr, Except.map] using hcall
          exact eventFilter_guarded hr
      | addTitle str col line => exact .inr ⟨.addTitle str col line, trivial, hcall⟩
      | addName str col line => exact .inr ⟨.addName str col line, trivial, hcall⟩
    rcases hop with rfl | ⟨op, hguard, happly⟩
    · exact .refl _
    · rw [← LineManager.step_of_apply happly]
      exact titlesKept_guarded hguard line

theorem titlesKept_run (b : Build) (inputs : List Input) (lm : LineManager) (line : UInt32) :
    TitlesKept (lm.fields line) ((run (step b) lm inputs).fields line) := by
  induction inputs generalizing lm with
  | nil => exact .refl _
  | cons input inputs ih => exact (titlesKept_step b lm input line).trans (ih _)

/-- Once a title is in a line it stays there, at its index, with its text and its width. -/
theorem title_immutable (b : Build) (before after : List Input) (line : UInt32) (i : Nat) (f : Field)
    (hf : ((run (step b) .empty before).fields line)[i]? = some f) (ht : f.mType = .title) :
    ∃ g, ((run (step b) .empty (before ++ after)).fields line)[i]? = some g ∧ g.mType = .title ∧
      g.mInfo = f.mInfo ∧ g.mEnd - g.mStart = f.mEnd - f.mStart := by
  rw [run_append]
  obtain ⟨g, hg, htype, hinfo, hwidth⟩ := titlesKept_run b after _ line i f hf ht
  exact ⟨g, hg, htype, hinfo, hwidth⟩

/-- A title behind a name, moved by a character typed into the name, and then attacked with Delete. -/
theorem title_immutable_after_name :
    let before : List Input := [.addName [97] 0 0, .addTitle [66, 97] 4 0]
    let after : List Input :=
      [.event ⟨true, 1, 0, 1, 1⟩ (.keyPress ⟨.other 0x58, false, [120]⟩),
        .event ⟨true, 5, 0, 5, 5⟩ (.keyPress ⟨.delete, false, []⟩)]
    ∃ g, ((run (step ⟨true, none⟩) .empty (before ++ after)).fields 0)[1]? = some g ∧ g.mType = .title ∧
      g.mInfo = [66, 97] ∧ g.mEnd - g.mStart = 6 - 4 :=
  title_immutable ⟨true, none⟩ [.addName [97] 0 0, .addTitle [66, 97] 4 0] _ 0 1
    { mPosition := 1, mType := .title, mStart := 4, mEnd := 6, mInfo := [66, 97] } (by decide +kernel) rfl

end PlainEditor

end MetaEditor
