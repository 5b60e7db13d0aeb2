import MetaEditor.Data.Indexed
import MetaEditor.Lib.Arc
import MetaEditor.Lib.Middle

/-!
# Titles in the shadow of other fields

The lookups take the first field in creation order that contains a column. A title is seen at all of its
columns when no text or name that was created before it has a column in common with it (`Unshadowed`).
Nothing keeps the two apart: a title is made wherever its first column is free, however long it is, and
the fields before the one that is edited do not move with the title. `StaysVisible` says when a step keeps
them apart. The columns of a field are an arc, because they wrap.
-/

namespace MetaEditor

open Lib

namespace Field

/-- The columns of a field. -/
def arc (f : Field) : Arc := { start := f.mStart, width := f.width }

theorem mem_arc {f : Field} {col : UInt32} (h : f.atRange col = true) : f.arc.Mem col :=
  UInt32.le_iff_toNat_le.mpr (offset_le_width h)

@[simp] theorem last_arc (f : Field) : f.arc.last = f.mEnd := by
  simp only [Arc.last, arc, width]
  grind

theorem arc_shiftRight (f : Field) : f.shiftRight.arc = f.arc.turn 1 := by
  rw [arc, width_shiftRight]
  rfl

theorem arc_shiftLeft (f : Field) : f.shiftLeft.arc = f.arc.turn (-1) := by
  rw [arc, width_shiftLeft, arc, Arc.turn, shiftLeft_mStart, UInt32.sub_eq_add_neg]

theorem arc_withChar (f : Field) (c : UInt8) (pos : UInt32) : (f.withChar c pos).arc = f.arc.grow := by
  rw [arc, width_withChar]
  rfl

theorem arc_withoutChar (f : Field) (pos : UInt32) : (f.withoutChar pos).arc = f.arc.shrink := by
  rw [arc, width_withoutChar]
  rfl

theorem arc_newString (type : FieldType) (pos : Nat) (col : UInt32) (str : Bytes) :
    (newString type pos col str).arc = { start := col, width := UInt32.ofNat (utf8StringSize str) } := by
  rw [arc, width_newString]
  rfl

/-- A field of one column is not erased in. -/
theorem width_ne_zero {f : Field} {col : UInt32} (hin : f.atRange col = true)
    (hle : (col - 1 - f.mStart).toNat ≤ f.mInfo.length) (hsize : f.mStart = f.mEnd → f.mInfo.length + 1 < 2 ^ 32) :
    f.arc.width ≠ 0 := by
  intro hzero
  have hbounds : f.mStart = f.mEnd := by
    have hwidth : f.mEnd - f.mStart = 0 := hzero
    grind
  obtain ⟨hlow, hhigh⟩ := atRange_eq_true.mp hin
  exact ne_start_of_le hle (hsize hbounds) (UInt32.le_antisymm (hbounds ▸ hhigh) hlow)

end Field

/-- No title has a column in common with a field that is no title and was created before it. -/
def Unshadowed (fields : List Field) : Prop :=
  ∀ (i j : Nat) g t, i < j → fields[i]? = some g → fields[j]? = some t → g.mType ≠ .title → t.mType = .title →
    g.arc.Apart t.arc

/-- In such a line a column in a title finds a title. -/
theorem Unshadowed.title_of_firstAt {fields : List Field} (h : Unshadowed fields) {col : UInt32} {i : Nat} {f t : Field}
    (hfirst : FirstAt fields col i f) (ht : t ∈ fields) (htitle : t.mType = .title) (hin : t.atRange col = true) :
    f.mType = .title := by
  by_contra hne
  obtain ⟨j, hj⟩ := List.mem_iff_getElem?.mp ht
  rcases Nat.lt_trichotomy j i with hlt | rfl | hlt
  · exact absurd hin (by simp [hfirst.first j t hlt hj])
  · obtain rfl : f = t := Option.some.inj (hfirst.get.symm.trans hj)
    exact hne htitle
  · exact h i j f t hlt hfirst.get hj hne htitle col (Field.mem_arc hfirst.inRange) (Field.mem_arc hin)

namespace LineManager

/-! ### What the lookups answer -/

section Lookups

variable {lm : LineManager} {col line : UInt32}

/-- The type of a column is `Title` exactly when the field found there is a title. -/
theorem type_eq_title : lm.type col line = "Title" ↔ ∃ i f, FirstAt (lm.fields line) col i f ∧ f.mType = .title := by
  by_cases hnone : ∀ g ∈ lm.fields line, g.atRange col = false
  · have htext : lm.type col line = "Text" := by
      cases hget : lm.get? line with
      | none => simp [type, lineAt, hget]
      | some ptr =>
        rw [fields_of_get? hget] at hnone
        simp [type, lineAt, hget, Line.searchAtCol_eq_none.mpr hnone]
    rw [htext]
    refine iff_of_false (by decide) ?_
    rintro ⟨i, f, hfirst, -⟩
    exact hfirst.not_outside hnone
  · obtain ⟨i, f, hfirst⟩ := exists_firstAt hnone
    have hfound : lm.type col line = "Title" ↔ f.mType = .title := by
      obtain ⟨ptr, hget, hfirst⟩ := exists_line hfirst
      obtain ⟨hlt, rfl⟩ := List.getElem?_eq_some_iff.mp hfirst.get
      simp only [type, if_neg (isEmpty_of_get? hget), lineAt, hget, Line.searchAtCol_of_firstAt hfirst, Fin.getElem_fin]
      cases ptr.mFields[i].mType <;> decide
    rw [hfound]
    refine ⟨fun htitle => ⟨i, f, hfirst, htitle⟩, ?_⟩
    rintro ⟨j, g, hg, htitle⟩
    obtain ⟨-, rfl⟩ := hg.unique hfirst
    exact htitle

/-- `eventFilter` answers what `isEditable` answers. -/
theorem eventFilter_answer (lm : LineManager) (col line : UInt32) (c : UInt8) :
    ∃ lm', lm.eventFilter col line c = .ok (lm.isEditable col line, lm') := by
  by_cases hnone : ∀ g ∈ lm.fields line, g.atRange col = false
  · rw [isEditable_of_outside hnone]
    exact ⟨_, eventFilter_of_outside hnone⟩
  · obtain ⟨i, f, hfirst⟩ := exists_firstAt hnone
    rw [isEditable_of_firstAt hfirst]
    by_cases htitle : f.mType = .title
    · rw [htitle]
      exact ⟨lm, eventFilter_of_title hfirst htitle⟩
    · rw [bne_iff_ne.mpr htitle]
      by_cases hle : (col - f.mStart).toNat ≤ f.mInfo.length
      · exact ⟨_, eventFilter_of_le hfirst htitle hle⟩
      · exact ⟨lm, eventFilter_of_lt hfirst htitle (not_le.mp hle)⟩

end Lookups

/-- The columns that cannot be edited, those of type `Title` and those that refuse a character are the
columns of the titles. -/
def TitlesSeen (lm : LineManager) : Prop :=
  ∀ col line,
    (lm.isEditable col line = false ↔ ∃ f ∈ lm.fields line, f.mType = .title ∧ f.mStart ≤ col ∧ col ≤ f.mEnd) ∧
    (lm.type col line = "Title" ↔ ∃ f ∈ lm.fields line, f.mType = .title ∧ f.mStart ≤ col ∧ col ≤ f.mEnd) ∧
    ∀ c, ∃ lm', lm.eventFilter col line c = .ok (lm.isEditable col line, lm')

theorem titlesSeen_of_unshadowed {lm : LineManager} (h : ∀ line, Unshadowed (lm.fields line)) : TitlesSeen lm := by
  intro col line
  have hfound : (∃ i f, FirstAt (lm.fields line) col i f ∧ f.mType = .title) ↔
      ∃ f ∈ lm.fields line, f.mType = .title ∧ f.mStart ≤ col ∧ col ≤ f.mEnd := by
    constructor
    · rintro ⟨i, f, hfirst, htitle⟩
      exact ⟨f, hfirst.mem, htitle, Field.atRange_eq_true.mp hfirst.inRange⟩
    · rintro ⟨t, ht, htitle, hin⟩
      rw [← Field.atRange_eq_true] at hin
      have hsome : ¬∀ g ∈ lm.fields line, g.atRange col = false := fun hnone => Bool.eq_false_iff.mp (hnone t ht) hin
      obtain ⟨i, f, hfirst⟩ := exists_firstAt hsome
      exact ⟨i, f, hfirst, (h line).title_of_firstAt hfirst ht htitle hin⟩
  exact ⟨isEditable_eq_false.trans hfound, type_eq_title.trans hfound, eventFilter_answer lm col line⟩

/-! ### The condition on a step -/

/-- What keeps the titles of a line visible. The first field that contains the column is the one at `i`. -/
def KeepsVisible (fields : List Field) : Op → Prop
  | .eventFilter col _ _ =>
    ∀ i ∈ fields.findIdx? (·.atRange col), (∀ f ∈ fields[i]?, f.mType ≠ .title) →
      ∀ g ∈ fields.take (i + 1), ∀ t ∈ fields.drop (i + 1), g.mType ≠ .title → t.mType = .title → t.mEnd + 1 ≠ g.mStart
  | .addTitle str col _ =>
    (∀ g ∈ fields, g.atRange col = false) → ∀ g ∈ fields, g.mType ≠ .title →
      g.arc.Apart { start := col, width := UInt32.ofNat (utf8StringSize (cString str)) }
  | .addName _ _ _ => True
  | .removeCharacter col _ =>
    ∀ i ∈ fields.findIdx? (·.atRange col), (∀ f ∈ fields[i]?, f.mStart = f.mEnd → f.mInfo.length + 1 < 2 ^ 32) ∧
      ∀ g ∈ fields.take i, ∀ t ∈ fields.drop (i + 1), g.mType ≠ .title → t.mType = .title → g.mEnd + 1 ≠ t.mStart

/-- The same for the line of the operation. -/
def StaysVisible (lm : LineManager) (op : Op) : Prop := KeepsVisible (lm.fields op.line) op

instance (fields : List Field) : (op : Op) → Decidable (KeepsVisible fields op)
  | .eventFilter _ _ _ => inferInstanceAs (Decidable (∀ i ∈ fields.findIdx? _, _))
  | .addTitle _ _ _ => inferInstanceAs (Decidable (_ → _))
  | .addName _ _ _ => instDecidableTrue
  | .removeCharacter _ _ => inferInstanceAs (Decidable (∀ i ∈ fields.findIdx? _, _))

instance (lm : LineManager) (op : Op) : Decidable (StaysVisible lm op) :=
  inferInstanceAs (Decidable (KeepsVisible _ _))

/-! ### One step -/

/-- Typing: the field grows and the later ones move on. -/
theorem unshadowed_typed {fields : List Field} {col line : UInt32} {c : UInt8} {i : Nat} {f : Field}
    (hidx : Indexed fields) (h : Unshadowed fields) (hfirst : FirstAt fields col i f) (htype : f.mType ≠ .title)
    (hcond : KeepsVisible fields (.eventFilter col line c)) :
    Unshadowed (Line.shiftFrom (f.mPosition + 1) Field.shiftRight (fields.set i (f.withChar c col))) := by
  have hnext : ∀ {k j : Nat} {g t : Field}, k ≤ i → i < j → fields[k]? = some g → fields[j]? = some t →
      g.mType ≠ .title → t.mType = .title → t.arc.last + 1 ≠ g.arc.start := by
    intro k j g t hk hj hg ht hgt htt
    rw [Field.last_arc]
    refine hcond i hfirst.findIdx? (fun f' hf' => ?_) g (mem_take_of_getElem? (Nat.lt_succ_of_le hk) hg) t
      (mem_drop_of_getElem? hj ht) hgt htt
    rwa [Option.some.inj (hf'.symm.trans hfirst.get)]
  intro k j g t hkj hg ht hgt htt
  rw [hidx i f hfirst.get, Line.getElem?_edit hfirst.lt] at hg ht
  rcases ht with ⟨hj, ht⟩ | ⟨rfl, rfl⟩ | ⟨hj, t, ht, rfl⟩
  · obtain ⟨-, hg⟩ := hg.resolve_right (by omega)
    exact h k j g t hkj hg ht hgt htt
  · exact absurd htt htype
  · rw [Field.arc_shiftRight]
    rcases hg with ⟨hk, hg⟩ | ⟨rfl, rfl⟩ | ⟨hk, g, hg, rfl⟩
    · exact (h k j g t hkj hg ht hgt htt).turn_right (hnext hk.le hj hg ht hgt htt)
    · rw [Field.arc_withChar]
      exact (h k j f t hkj hfirst.get ht htype htt).grow_turn_right (hnext (le_refl _) hj hfirst.get ht htype htt)
    · rw [Field.arc_shiftRight]
      exact (h k j g t hkj hg ht hgt htt).turn 1

/-- Removing: the field shrinks and the later ones move back. -/
theorem unshadowed_removed {fields : List Field} {col line : UInt32} {i : Nat} {f : Field} (hidx : Indexed fields)
    (h : Unshadowed fields) (hfirst : FirstAt fields col i f) (hle : (col - 1 - f.mStart).toNat ≤ f.mInfo.length)
    (hcond : KeepsVisible fields (.removeCharacter col line)) :
    Unshadowed (Line.shiftFrom (f.mPosition + 1) Field.shiftLeft (fields.set i (f.withoutChar (col - 1)))) := by
  obtain ⟨hsize, hnext⟩ := hcond i hfirst.findIdx?
  have hwidth : f.arc.width ≠ 0 := Field.width_ne_zero hfirst.inRange hle (hsize f hfirst.get)
  intro k j g t hkj hg ht hgt htt
  rw [hidx i f hfirst.get, Line.getElem?_edit hfirst.lt] at hg ht
  rcases ht with ⟨hj, ht⟩ | ⟨rfl, rfl⟩ | ⟨hj, t, ht, rfl⟩
  · obtain ⟨-, hg⟩ := hg.resolve_right (by omega)
    exact h k j g t hkj hg ht hgt htt
  · obtain ⟨-, hg⟩ := hg.resolve_right (by omega)
    rw [Field.arc_withoutChar]
    exact (h k j g f hkj hg hfirst.get hgt htt).shrink_right hwidth
  · rw [Field.arc_shiftLeft]
    rcases hg with ⟨hk, hg⟩ | ⟨rfl, rfl⟩ | ⟨hk, g, hg, rfl⟩
    · refine (h k j g t hkj hg ht hgt htt).turn_left ?_
      rw [Field.last_arc]
      exact hnext g (mem_take_of_getElem? hk hg) t (mem_drop_of_getElem? hj ht) hgt htt
    · rw [Field.arc_withoutChar]
      exact (h k j f t hkj hfirst.get ht hgt htt).shrink_turn_left hwidth
    · rw [Field.arc_shiftLeft]
      exact (h k j g t hkj hg ht hgt htt).turn (-1)

/-- A new field is behind all others: it is only seen if it is no title, or has no column of theirs. -/
theorem unshadowed_concat {fields : List Field} {f : Field} (h : Unshadowed fields)
    (hnew : f.mType = .title → ∀ g ∈ fields, g.mType ≠ .title → g.arc.Apart f.arc) : Unshadowed (fields ++ [f]) := by
  intro i j g t hij hg ht hgt htt
  have hj := (List.getElem?_eq_some_iff.mp ht).1
  rw [List.length_append, List.length_singleton] at hj
  have hg' : fields[i]? = some g := (getElem?_concat.mp hg).resolve_right (by omega)
  rcases getElem?_concat.mp ht with ht | ⟨rfl, rfl⟩
  · exact h i j g t hij hg' ht hgt htt
  · exact hnew htt g (List.mem_of_getElem? hg') hgt

/-- A step that meets the condition keeps the titles of its line visible. -/
theorem unshadowed_fieldsStep {op : Op} {fields after : List Field} (hidx : Indexed fields) (h : Unshadowed fields)
    (hcond : KeepsVisible fields op) (hstep : FieldsStep op fields after) : Unshadowed after := by
  cases hstep with
  | typed hfirst htype _ => exact unshadowed_typed hidx h hfirst htype hcond
  | created _ => exact unshadowed_concat h nofun
  | @added _ _ type str col hop hnone =>
    refine unshadowed_concat h fun htitle g hg hgt => ?_
    obtain rfl : type = .title := htitle
    rw [Field.arc_newString]
    cases op with
    | addTitle str' col' line =>
      obtain ⟨-, rfl, rfl⟩ : FieldType.title = .title ∧ str' = str ∧ col' = col := by simpa [Op.adds] using hop
      exact hcond hnone g hg hgt
    | addName _ _ _ => simp [Op.adds] at hop
    | eventFilter _ _ _ => cases hop
    | removeCharacter _ _ => cases hop
  | removed hfirst hle => exact unshadowed_removed hidx h hfirst hle hcond

/-- In every run whose steps all meet the condition the lookups see the titles of the state reached. -/
theorem run_titlesSeen (ops : List Op) (hops : StepsMeet step StaysVisible empty ops) : TitlesSeen (run step empty ops) := by
  have hinv : ∀ line, Indexed ((run step empty ops).fields line) ∧ Unshadowed ((run step empty ops).fields line) := by
    refine run_inv_of_stepsMeet (fun lm : LineManager => ∀ line, Indexed (lm.fields line) ∧ Unshadowed (lm.fields line))
      (fun lm op hinv hcond => ?_) (fun line => ?_) hops
    · refine fields_step_inv (fun fields => Indexed fields ∧ Unshadowed fields) (fun after hbefore hstep => ?_) hinv
      exact ⟨indexed_fieldsStep hbefore.1 hstep, unshadowed_fieldsStep hbefore.1 hbefore.2 hcond hstep⟩
    · rw [fields_empty]
      exact ⟨by simp [Indexed], by simp [Unshadowed]⟩
  exact titlesSeen_of_unshadowed fun line => (hinv line).2

/-- A title left of a text that is typed and erased in. -/
def titleAndText : List Op :=
  [.eventFilter 9 0 120, .addTitle [66, 97, 115, 101] 0 0, .eventFilter 10 0 121, .removeCharacter 10 0]

theorem run_titlesSeen_titleAndText : TitlesSeen (run step empty titleAndText) :=
  run_titlesSeen titleAndText (by decide +kernel)

/-- A title that is made over a typed character is not seen at the column of the character. -/
theorem run_not_titlesSeen : ¬∀ ops : List Op, TitlesSeen (run step empty ops) := by
  intro h
  have hseen := (h [.eventFilter 3 0 97, .addTitle [97, 98, 99, 100] 0 0] 3 0).1
  have hfields : (run step empty [.eventFilter 3 0 97, .addTitle [97, 98, 99, 100] 0 0]).fields 0 =
      [.newText 0 3 97, .newString .title 1 0 [97, 98, 99, 100]] := by decide +kernel
  have hedit : (run step empty [.eventFilter 3 0 97, .addTitle [97, 98, 99, 100] 0 0]).isEditable 3 0 = true := by
    decide +kernel
  rw [hfields, hedit] at hseen
  refine absurd (hseen.mpr ⟨_, List.mem_cons_of_mem _ List.mem_cons_self, rfl, ?_, ?_⟩) (by decide)
  · decide +kernel
  · decide +kernel

end LineManager

end MetaEditor
