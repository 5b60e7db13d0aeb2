import MetaEditor.Data.LineManager

/-!
# What one operation does

`eventFilter_cases` and `removeCharacter_cases` invert the two operations that find a field, with
their answers and their exceptions. `FieldsStep` forgets the answers: it relates the fields of the
line before and after an operation that changed something. `step_cases` and `fields_step_inv` are what
the invariants are proved from.
-/

namespace MetaEditor

open Lib

namespace Field

/-- The field with a character typed at a column. -/
def withChar (f : Field) (c : UInt8) (pos : UInt32) : Field :=
  { f with
    mInfo := f.mInfo.take (pos - f.mStart).toNat ++ [c] ++ f.mInfo.drop (pos - f.mStart).toNat
    mEnd := f.mEnd + 1 }

/-- The field with the character at a column erased. -/
def withoutChar (f : Field) (pos : UInt32) : Field :=
  { f with
    mInfo := f.mInfo.take (pos - f.mStart).toNat ++ f.mInfo.drop ((pos - f.mStart).toNat + 1)
    mEnd := f.mEnd - 1 }

/-- A new field that holds one typed character. -/
def newText (pos : Nat) (col : UInt32) (c : UInt8) : Field :=
  { mPosition := pos, mType := .text, mStart := col, mEnd := col + 1, mInfo := [c] }

/-- A new field that holds a string added by a script. -/
def newString (type : FieldType) (pos : Nat) (col : UInt32) (str : Bytes) : Field :=
  { mPosition := pos, mType := type, mStart := col, mEnd := col + UInt32.ofNat (utf8StringSize str), mInfo := str }

theorem appendChar_of_le {f : Field} {pos : UInt32} (h : (pos - f.mStart).toNat ≤ f.mInfo.length) (c : UInt8) :
    f.appendChar c pos = .ok (f.withChar c pos) := by
  simp [appendChar, insertAt_of_le h, withChar, pure, Except.pure, bind, Except.bind]

theorem appendChar_of_lt {f : Field} {pos : UInt32} (h : f.mInfo.length < (pos - f.mStart).toNat) (c : UInt8) :
    f.appendChar c pos = .error .outOfRange := by
  simp [appendChar, insertAt_of_lt h, bind, Except.bind]

theorem removeAt_of_le {f : Field} {pos : UInt32} (h : (pos - f.mStart).toNat ≤ f.mInfo.length) :
    f.removeAt pos = .ok (f.withoutChar pos) := by
  simp [removeAt, eraseAt_of_le h, withoutChar, pure, Except.pure, bind, Except.bind]

theorem removeAt_of_lt {f : Field} {pos : UInt32} (h : f.mInfo.length < (pos - f.mStart).toNat) :
    f.removeAt pos = .error .outOfRange := by
  simp [removeAt, eraseAt_of_lt h, bind, Except.bind]

theorem length_withChar {f : Field} {pos : UInt32} (h : (pos - f.mStart).toNat ≤ f.mInfo.length) (c : UInt8) :
    (f.withChar c pos).mInfo.length = f.mInfo.length + 1 := by
  simp only [withChar, List.length_append, List.length_take, List.length_drop, List.length_singleton]
  omega

theorem length_withoutChar {f : Field} {pos : UInt32} (h : (pos - f.mStart).toNat < f.mInfo.length) :
    (f.withoutChar pos).mInfo.length + 1 = f.mInfo.length := by
  simp only [withoutChar, List.length_append, List.length_take, List.length_drop]
  omega

theorem width_withChar (f : Field) (c : UInt8) (pos : UInt32) : (f.withChar c pos).width = f.width + 1 := by
  simp only [width, withChar]
  grind

theorem width_withoutChar (f : Field) (pos : UInt32) : (f.withoutChar pos).width = f.width - 1 := by
  simp only [width, withoutChar]
  grind

theorem width_newText (pos : Nat) (col : UInt32) (c : UInt8) : (newText pos col c).width = 1 := by
  simp only [width, newText]
  grind

theorem width_newString (type : FieldType) (pos : Nat) (col : UInt32) (str : Bytes) :
    (newString type pos col str).width = UInt32.ofNat (utf8StringSize str) := by
  simp only [width, newString]
  grind

/-- A new field takes its first character at offset `0`. -/
@[simp] theorem new_appendChar (pos : Nat) (col : UInt32) (c : UInt8) :
    (new pos .text col col).appendChar c col = .ok (newText pos col c) := by
  rw [appendChar_of_le (by simp [new])]
  simp [withChar, new, newText]

@[simp] theorem new_appendInfo (type : FieldType) (pos : Nat) (col : UInt32) (str : Bytes) :
    (new pos type col col).appendInfo str col = .ok (newString type pos col str) := by
  simp [appendInfo, new, newString, insertAt, pure, Except.pure, bind, Except.bind]

end Field

/-- The field a lookup finds: the first that contains the column. -/
structure FirstAt (fields : List Field) (col : UInt32) (i : Nat) (f : Field) : Prop where
  get : fields[i]? = some f
  inRange : f.atRange col = true
  first : ∀ j g, j < i → fields[j]? = some g → g.atRange col = false

/-- The only field that contains the column is the first. -/
theorem firstAt_of_unique {fields : List Field} {col : UInt32} {i : Nat} {f : Field} (hf : fields[i]? = some f)
    (hin : f.atRange col = true) (hunique : ∀ (j : Nat) g, fields[j]? = some g → g.atRange col = true → j = i) :
    FirstAt fields col i f := by
  refine ⟨hf, hin, fun j g hj hg => ?_⟩
  by_contra hgin
  exact hj.ne (hunique j g hg (by simpa using hgin))

theorem FirstAt.mem {fields : List Field} {col : UInt32} {i : Nat} {f : Field} (h : FirstAt fields col i f) :
    f ∈ fields := List.mem_of_getElem? h.get

theorem FirstAt.lt {fields : List Field} {col : UInt32} {i : Nat} {f : Field} (h : FirstAt fields col i f) :
    i < fields.length := (List.getElem?_eq_some_iff.mp h.get).1

/-- Its index. -/
theorem FirstAt.findIdx? {fields : List Field} {col : UInt32} {i : Nat} {f : Field} (h : FirstAt fields col i f) :
    i ∈ fields.findIdx? (·.atRange col) := by
  obtain ⟨hlt, rfl⟩ := List.getElem?_eq_some_iff.mp h.get
  refine List.findIdx?_eq_some_iff_getElem.mpr ⟨hlt, h.inRange, fun j hj => ?_⟩
  rw [Bool.not_eq_true]
  exact h.first j _ hj (List.getElem?_eq_getElem _)

theorem FirstAt.find? {fields : List Field} {col : UInt32} {i : Nat} {f : Field} (h : FirstAt fields col i f) :
    fields.find? (·.atRange col) = some f := by
  obtain ⟨hlt, rfl⟩ := List.getElem?_eq_some_iff.mp h.get
  refine List.find?_eq_some_iff_getElem.mpr ⟨h.inRange, i, hlt, rfl, fun j hj => ?_⟩
  rw [Bool.not_eq_true']
  exact h.first j _ hj (List.getElem?_eq_getElem _)

theorem FirstAt.not_outside {fields : List Field} {col : UInt32} {i : Nat} {f : Field} (h : FirstAt fields col i f) :
    ¬∀ g ∈ fields, g.atRange col = false :=
  fun hout => Bool.eq_false_iff.mp (hout f h.mem) h.inRange

theorem FirstAt.unique {fields : List Field} {col : UInt32} {i j : Nat} {f g : Field}
    (hf : FirstAt fields col i f) (hg : FirstAt fields col j g) : i = j ∧ f = g := by
  rcases Nat.lt_trichotomy i j with hlt | rfl | hlt
  · exact absurd hf.inRange (by simp [hg.first i f hlt hf.get])
  · exact ⟨rfl, Option.some.inj (hf.get.symm.trans hg.get)⟩
  · exact absurd hg.inRange (by simp [hf.first j g hlt hg.get])

theorem Line.searchAtCol_eq_none {l : Line} {col : UInt32} :
    l.searchAtCol col = none ↔ ∀ g ∈ l.mFields, g.atRange col = false := by
  simp [searchAtCol]

theorem Line.firstAt_of_searchAtCol {l : Line} {col : UInt32} {i : Fin l.mFields.length}
    (h : l.searchAtCol col = some i) : FirstAt l.mFields col i (l.mFields.get i) := by
  obtain ⟨hin, hfirst⟩ := List.findFinIdx?_eq_some_iff.mp h
  refine ⟨List.getElem?_eq_getElem i.isLt, hin, fun j g hj hg => ?_⟩
  obtain ⟨hlt, rfl⟩ := List.getElem?_eq_some_iff.mp hg
  simpa using hfirst ⟨j, hlt⟩ hj

theorem exists_firstAt {fields : List Field} {col : UInt32} (h : ¬∀ g ∈ fields, g.atRange col = false) :
    ∃ i f, FirstAt fields col i f := by
  have hsearch : ({ mNumber := 0, mFields := fields } : Line).searchAtCol col ≠ none :=
    fun hnone => h (Line.searchAtCol_eq_none.mp hnone)
  obtain ⟨i, hi⟩ := Option.ne_none_iff_exists'.mp hsearch
  exact ⟨i, _, Line.firstAt_of_searchAtCol hi⟩

theorem Line.searchAtCol_of_firstAt {l : Line} {col : UInt32} {i : Nat} {f : Field} (h : FirstAt l.mFields col i f) :
    l.searchAtCol col = some ⟨i, h.lt⟩ := by
  obtain ⟨hlt, rfl⟩ := List.getElem?_eq_some_iff.mp h.get
  refine List.findFinIdx?_eq_some_iff.mpr ⟨h.inRange, fun j hj => ?_⟩
  simpa using h.first j (l.mFields.get j) hj (List.getElem?_eq_getElem j.isLt)

namespace LineManager

/-- The line, or a new one. -/
def lineFor (lm : LineManager) (line : UInt32) : Line := (lm.get? line).getD { mNumber := line, mFields := [] }

theorem lineFor_of_get? {lm : LineManager} {line : UInt32} {ptr : Line} (h : lm.get? line = some ptr) :
    lm.lineFor line = ptr := by
  rw [lineFor, h, Option.getD_some]

@[simp] theorem mFields_lineFor (lm : LineManager) (line : UInt32) : (lm.lineFor line).mFields = lm.fields line := by
  cases hget : lm.get? line with
  | none => rw [lineFor, fields, hget]; rfl
  | some ptr => rw [lineFor_of_get? hget, fields_of_get? hget]

@[simp] theorem lineFor_write_self (lm : LineManager) (line : UInt32) (ptr : Line) :
    (lm.write line ptr).lineFor line = ptr :=
  lineFor_of_get? ((get?_write lm line line ptr).trans (if_pos rfl))

section Calls

variable {lm : LineManager} {col line : UInt32} {c : UInt8} {i : Nat} {f : Field}

/-- A field that is found is in a line that exists. -/
theorem exists_line (hfirst : FirstAt (lm.fields line) col i f) :
    ∃ ptr, lm.get? line = some ptr ∧ FirstAt ptr.mFields col i f := by
  obtain ⟨ptr, hget⟩ := Option.ne_none_iff_exists'.mp (get?_ne_none_of_mem hfirst.mem)
  exact ⟨ptr, hget, fields_of_get? hget ▸ hfirst⟩

/-! ### The calls, case by case -/

/-- A title refuses the character. -/
theorem eventFilter_of_title (hfirst : FirstAt (lm.fields line) col i f) (htitle : f.mType = .title) :
    lm.eventFilter col line c = .ok (false, lm) := by
  obtain ⟨ptr, hget, hfirst⟩ := exists_line hfirst
  obtain ⟨hlt, rfl⟩ := List.getElem?_eq_some_iff.mp hfirst.get
  simp [eventFilter, eventFilterTry, lineAt, hget, Line.searchAtCol_of_firstAt hfirst, bind, Except.bind, pure,
    Except.pure, htitle]

/-- The character is typed into the field. -/
theorem eventFilter_of_le (hfirst : FirstAt (lm.fields line) col i f) (htype : f.mType ≠ .title)
    (hle : (col - f.mStart).toNat ≤ f.mInfo.length) :
    lm.eventFilter col line c = .ok (true, lm.write line ((lm.lineFor line).setFields
      (Line.shiftFrom (f.mPosition + 1) Field.shiftRight ((lm.fields line).set i (f.withChar c col))))) := by
  obtain ⟨ptr, hget, hfirst⟩ := exists_line hfirst
  rw [fields_of_get? hget, lineFor_of_get? hget]
  obtain ⟨hlt, rfl⟩ := List.getElem?_eq_some_iff.mp hfirst.get
  simp only [eventFilter, eventFilterTry, lineAt, hget, Line.searchAtCol_of_firstAt hfirst, bind, Except.bind, pure,
    Except.pure, Fin.getElem_fin, if_neg htype, Field.appendChar_of_le hle]
  rfl

/-- The character is lost in the handler. -/
theorem eventFilter_of_lt (hfirst : FirstAt (lm.fields line) col i f) (htype : f.mType ≠ .title)
    (hlt : f.mInfo.length < (col - f.mStart).toNat) : lm.eventFilter col line c = .ok (true, lm) := by
  obtain ⟨ptr, hget, hfirst⟩ := exists_line hfirst
  obtain ⟨hi, rfl⟩ := List.getElem?_eq_some_iff.mp hfirst.get
  simp only [eventFilter, eventFilterTry, lineAt, hget, Line.searchAtCol_of_firstAt hfirst, bind, Except.bind, pure,
    Except.pure, Fin.getElem_fin, if_neg htype, Field.appendChar_of_lt hlt, Field.new_appendChar,
    insert_of_get?_eq_some hget]

/-- A field is made for the character. -/
theorem eventFilter_of_outside (hnone : ∀ g ∈ lm.fields line, g.atRange col = false) :
    lm.eventFilter col line c =
      .ok (true, lm.write line ((lm.lineFor line).push (.newText (lm.fields line).length col c))) := by
  cases hget : lm.get? line with
  | none =>
    simp [eventFilter, eventFilterTry, lineAt, hget, bind, Except.bind, pure, Except.pure, fields, lineFor, Line.push,
      Line.setFields, insert_of_get?_eq_none hget]
  | some ptr =>
    rw [fields_of_get? hget] at hnone ⊢
    simp [eventFilter, eventFilterTry, lineAt, hget, Line.searchAtCol_eq_none.mpr hnone, bind, Except.bind, pure,
      Except.pure, insert_write, lineFor]

/-- A byte of the field is erased. -/
theorem removeCharacter_of_le (hfirst : FirstAt (lm.fields line) col i f)
    (hle : (col - 1 - f.mStart).toNat ≤ f.mInfo.length) :
    lm.removeCharacter col line = .ok (lm.write line ((lm.lineFor line).setFields
      (Line.shiftFrom (f.mPosition + 1) Field.shiftLeft ((lm.fields line).set i (f.withoutChar (col - 1)))))) := by
  obtain ⟨ptr, hget, hfirst⟩ := exists_line hfirst
  rw [fields_of_get? hget, lineFor_of_get? hget]
  obtain ⟨hlt, rfl⟩ := List.getElem?_eq_some_iff.mp hfirst.get
  simp only [removeCharacter, removeCharacterTry, lineAt, hget, Line.searchAtCol_of_firstAt hfirst, bind, Except.bind,
    pure, Except.pure, Fin.getElem_fin, Field.removeAt_of_le hle]
  rfl

theorem removeCharacter_of_lt (hfirst : FirstAt (lm.fields line) col i f)
    (hlt : f.mInfo.length < (col - 1 - f.mStart).toNat) : lm.removeCharacter col line = .ok lm := by
  obtain ⟨ptr, hget, hfirst⟩ := exists_line hfirst
  obtain ⟨hi, rfl⟩ := List.getElem?_eq_some_iff.mp hfirst.get
  simp only [removeCharacter, removeCharacterTry, lineAt, hget, Line.searchAtCol_of_firstAt hfirst, bind, Except.bind,
    Fin.getElem_fin, Field.removeAt_of_lt hlt]

theorem removeCharacter_of_outside (hnone : ∀ g ∈ lm.fields line, g.atRange col = false) :
    lm.removeCharacter col line = .ok lm := by
  cases hget : lm.get? line with
  | none => simp [removeCharacter, removeCharacterTry, lineAt, hget, bind, Except.bind]
  | some ptr =>
    rw [fields_of_get? hget] at hnone
    simp [removeCharacter, removeCharacterTry, lineAt, hget, Line.searchAtCol_eq_none.mpr hnone, bind, Except.bind, pure,
      Except.pure]

/-- On an occupied column nothing is added. -/
theorem addField_of_firstAt {type : FieldType} {str : Bytes} (hfirst : FirstAt (lm.fields line) col i f) :
    addField type lm str col line = .ok lm := by
  obtain ⟨ptr, hget, hfirst⟩ := exists_line hfirst
  have hnew : lm.lineOrNew line = (ptr, lm) := by simp [lineOrNew, lineAt, hget]
  rw [addField, hnew]
  simp [Line.searchAtCol_of_firstAt hfirst, pure, Except.pure]

/-- Elsewhere a field is made for the string. -/
theorem addField_of_outside {type : FieldType} {str : Bytes} (hnone : ∀ g ∈ lm.fields line, g.atRange col = false) :
    addField type lm str col line = .ok (lm.write line
      ((lm.lineFor line).push (.newString type (lm.fields line).length col (cString str)))) := by
  cases hget : lm.get? line with
  | none =>
    have hnew : lm.lineOrNew line = ({ mNumber := line, mFields := [] },
        lm.write line { mNumber := line, mFields := [] }) := by
      simp [lineOrNew, lineAt, hget, insert_of_get?_eq_none]
    have hsearch : ({ mNumber := line, mFields := [] } : Line).searchAtCol col = none :=
      Line.searchAtCol_eq_none.mpr (List.forall_mem_nil _)
    rw [addField, hnew]
    simp [hsearch, bind, Except.bind, pure, Except.pure, write_write, fields, hget, lineFor]
  | some ptr =>
    rw [fields_of_get? hget] at hnone ⊢
    have hnew : lm.lineOrNew line = (ptr, lm) := by simp [lineOrNew, lineAt, hget]
    rw [addField, hnew, lineFor_of_get? hget]
    simp [Line.searchAtCol_eq_none.mpr hnone, bind, Except.bind, pure, Except.pure]

end Calls

/-- What a call of `eventFilter` does: refuse a title, type into a field, lose the character in the
handler, or make a field, in a line that may be new. -/
theorem eventFilter_cases (lm : LineManager) (col line : UInt32) (c : UInt8) :
    (∃ i f, FirstAt (lm.fields line) col i f ∧ f.mType = .title ∧
      lm.eventFilter col line c = .ok (false, lm)) ∨
    (∃ i f, FirstAt (lm.fields line) col i f ∧ f.mType ≠ .title ∧ (col - f.mStart).toNat ≤ f.mInfo.length ∧
      lm.eventFilter col line c = .ok (true, lm.write line ((lm.lineFor line).setFields
        (Line.shiftFrom (f.mPosition + 1) Field.shiftRight ((lm.fields line).set i (f.withChar c col)))))) ∨
    (∃ i f, FirstAt (lm.fields line) col i f ∧ f.mType ≠ .title ∧
      f.mInfo.length < (col - f.mStart).toNat ∧ lm.eventFilter col line c = .ok (true, lm)) ∨
    ((∀ g ∈ lm.fields line, g.atRange col = false) ∧ lm.eventFilter col line c =
      .ok (true, lm.write line ((lm.lineFor line).push (.newText (lm.fields line).length col c)))) := by
  by_cases hnone : ∀ g ∈ lm.fields line, g.atRange col = false
  · exact .inr (.inr (.inr ⟨hnone, eventFilter_of_outside hnone⟩))
  · obtain ⟨i, f, hfirst⟩ := exists_firstAt hnone
    by_cases htitle : f.mType = .title
    · exact .inl ⟨i, f, hfirst, htitle, eventFilter_of_title hfirst htitle⟩
    · by_cases hle : (col - f.mStart).toNat ≤ f.mInfo.length
      · exact .inr (.inl ⟨i, f, hfirst, htitle, hle, eventFilter_of_le hfirst htitle hle⟩)
      · have hlt := not_le.mp hle
        exact .inr (.inr (.inl ⟨i, f, hfirst, htitle, hlt, eventFilter_of_lt hfirst htitle hlt⟩))

/-- What a call of `removeCharacter` does: nothing, or erase in the field found. -/
theorem removeCharacter_cases (lm : LineManager) (col line : UInt32) :
    (lm.removeCharacter col line = .ok lm ∧ ∀ i f, FirstAt (lm.fields line) col i f →
      f.mInfo.length < (col - 1 - f.mStart).toNat) ∨
    (∃ i f, FirstAt (lm.fields line) col i f ∧ (col - 1 - f.mStart).toNat ≤ f.mInfo.length ∧
      lm.removeCharacter col line = .ok (lm.write line ((lm.lineFor line).setFields
        (Line.shiftFrom (f.mPosition + 1) Field.shiftLeft ((lm.fields line).set i (f.withoutChar (col - 1))))))) := by
  by_cases hnone : ∀ g ∈ lm.fields line, g.atRange col = false
  · exact .inl ⟨removeCharacter_of_outside hnone, fun i f hfirst => absurd hnone hfirst.not_outside⟩
  · obtain ⟨i, f, hfirst⟩ := exists_firstAt hnone
    by_cases hle : (col - 1 - f.mStart).toNat ≤ f.mInfo.length
    · exact .inr ⟨i, f, hfirst, hle, removeCharacter_of_le hfirst hle⟩
    · have hlt := not_le.mp hle
      refine .inl ⟨removeCharacter_of_lt hfirst hlt, fun j g hg => ?_⟩
      obtain ⟨-, rfl⟩ := hg.unique hfirst
      exact hlt

/-- The fields of the line after a character that was taken. -/
theorem fields_of_eventFilter {lm lm' : LineManager} {col line : UInt32} {c : UInt8}
    (h : lm.eventFilter col line c = .ok (true, lm')) :
    (∃ i f, FirstAt (lm.fields line) col i f ∧ (col - f.mStart).toNat ≤ f.mInfo.length ∧
      lm'.fields line = Line.shiftFrom (f.mPosition + 1) Field.shiftRight
        ((lm.fields line).set i (f.withChar c col))) ∨
    (∃ i f, FirstAt (lm.fields line) col i f ∧ f.mInfo.length < (col - f.mStart).toNat ∧ lm' = lm) ∨
    ((∀ g ∈ lm.fields line, g.atRange col = false) ∧
      lm'.fields line = lm.fields line ++ [.newText (lm.fields line).length col c]) := by
  rcases lm.eventFilter_cases col line c with ⟨_, _, _, _, hcall⟩ | ⟨i, f, hfirst, _, hle, hcall⟩ |
    ⟨i, f, hfirst, _, hlt, hcall⟩ | ⟨hnone, hcall⟩ <;> rw [hcall] at h <;> cases h
  · rw [fields_write_self]
    exact .inl ⟨i, f, hfirst, hle, rfl⟩
  · exact .inr (.inl ⟨i, f, hfirst, hlt, rfl⟩)
  · rw [fields_write_self, Line.push, Line.setFields_mFields, mFields_lineFor]
    exact .inr (.inr ⟨hnone, rfl⟩)

/-- The fields of the line after a removal. -/
theorem fields_of_removeCharacter {lm lm' : LineManager} {col line : UInt32}
    (h : lm.removeCharacter col line = .ok lm') :
    (lm' = lm ∧ ∀ i f, FirstAt (lm.fields line) col i f → f.mInfo.length < (col - 1 - f.mStart).toNat) ∨
    (∃ i f, FirstAt (lm.fields line) col i f ∧ (col - 1 - f.mStart).toNat ≤ f.mInfo.length ∧
      lm'.fields line = Line.shiftFrom (f.mPosition + 1) Field.shiftLeft
        ((lm.fields line).set i (f.withoutChar (col - 1)))) := by
  rcases lm.removeCharacter_cases col line with ⟨hcall, hpast⟩ | ⟨i, f, hfirst, hle, hcall⟩ <;>
    rw [hcall] at h <;> cases h
  · exact .inl ⟨rfl, hpast⟩
  · rw [fields_write_self]
    exact .inr ⟨i, f, hfirst, hle, rfl⟩

/-- What a call of `addTitle` or `addName` does: nothing on an occupied column, else a new field. -/
theorem addField_cases (type : FieldType) (lm : LineManager) (str : Bytes) (col line : UInt32) :
    (∃ i f, FirstAt (lm.fields line) col i f ∧ addField type lm str col line = .ok lm) ∨
    ((∀ g ∈ lm.fields line, g.atRange col = false) ∧ ∃ ptr : Line,
      ptr.mFields = lm.fields line ++ [.newString type (lm.fields line).length col (cString str)] ∧
      addField type lm str col line = .ok (lm.write line ptr)) := by
  by_cases hnone : ∀ g ∈ lm.fields line, g.atRange col = false
  · refine .inr ⟨hnone, _, ?_, addField_of_outside hnone⟩
    rw [Line.push, Line.setFields_mFields, mFields_lineFor]
  · obtain ⟨i, f, hfirst⟩ := exists_firstAt hnone
    exact .inl ⟨i, f, hfirst, addField_of_firstAt hfirst⟩

/-! ### The lookups -/

section Lookups

variable {lm : LineManager} {col line : UInt32} {i : Nat} {f : Field}

theorem isEmpty_of_get? {ptr : Line} (h : lm.get? line = some ptr) : ¬lm.mLines.isEmpty = true := by
  intro hempty
  simp [get?, Std.ExtTreeMap.isEmpty_iff.mp hempty] at h

theorem isEditable_of_firstAt (hfirst : FirstAt (lm.fields line) col i f) :
    lm.isEditable col line = (f.mType != .title) := by
  obtain ⟨ptr, hget, hfirst⟩ := exists_line hfirst
  obtain ⟨hlt, rfl⟩ := List.getElem?_eq_some_iff.mp hfirst.get
  simp only [isEditable, if_neg (isEmpty_of_get? hget), lineAt, hget, Line.searchAtCol_of_firstAt hfirst]
  rfl

theorem isEditable_of_outside (hnone : ∀ g ∈ lm.fields line, g.atRange col = false) : lm.isEditable col line = true := by
  cases hget : lm.get? line with
  | none => simp [isEditable, lineAt, hget]
  | some ptr =>
    rw [fields_of_get? hget] at hnone
    simp [isEditable, lineAt, hget, Line.searchAtCol_eq_none.mpr hnone]

/-- A column is not editable exactly when the field found there is a title. -/
theorem isEditable_eq_false :
    lm.isEditable col line = false ↔ ∃ i f, FirstAt (lm.fields line) col i f ∧ f.mType = .title := by
  by_cases hnone : ∀ g ∈ lm.fields line, g.atRange col = false
  · rw [isEditable_of_outside hnone]
    exact iff_of_false nofun fun ⟨_, _, hfirst, _⟩ => hfirst.not_outside hnone
  · obtain ⟨i, f, hfirst⟩ := exists_firstAt hnone
    rw [isEditable_of_firstAt hfirst, bne_eq_false_iff_eq]
    refine ⟨fun htitle => ⟨i, f, hfirst, htitle⟩, ?_⟩
    rintro ⟨j, g, hg, htitle⟩
    obtain ⟨-, rfl⟩ := hg.unique hfirst
    exact htitle

theorem not_title_of_isEditable (h : lm.isEditable col line = true) (hfirst : FirstAt (lm.fields line) col i f) :
    f.mType ≠ .title := by
  rw [isEditable_of_firstAt hfirst] at h
  exact bne_iff_ne.mp h

/-- A character that is taken was typed at an editable column. -/
theorem isEditable_of_eventFilter {lm' : LineManager} {c : UInt8}
    (h : lm.eventFilter col line c = .ok (true, lm')) : lm.isEditable col line = true := by
  by_contra hedit
  obtain ⟨i, f, hfirst, htitle⟩ := isEditable_eq_false.mp (Bool.not_eq_true _ ▸ hedit)
  rw [eventFilter_of_title hfirst htitle] at h
  cases h

end Lookups

/-! ### One step, without the answers -/

/-- The field an operation asks to add: its type, string and column. -/
def Op.adds : Op → Option (FieldType × Bytes × UInt32)
  | .addTitle str col _ => some (.title, str, col)
  | .addName str col _ => some (.name, str, col)
  | _ => none

/-- The fields of a line before and after an operation that changed them. -/
inductive FieldsStep : Op → List Field → List Field → Prop
  | typed {fields col line c i f} (hfirst : FirstAt fields col i f) (htype : f.mType ≠ .title)
      (hle : (col - f.mStart).toNat ≤ f.mInfo.length) :
      FieldsStep (.eventFilter col line c) fields
        (Line.shiftFrom (f.mPosition + 1) Field.shiftRight (fields.set i (f.withChar c col)))
  | created {fields col line c} (hnone : ∀ g ∈ fields, g.atRange col = false) :
      FieldsStep (.eventFilter col line c) fields (fields ++ [.newText fields.length col c])
  | added {op fields type str col} (hop : op.adds = some (type, str, col))
      (hnone : ∀ g ∈ fields, g.atRange col = false) :
      FieldsStep op fields (fields ++ [.newString type fields.length col (cString str)])
  | removed {fields col line i f} (hfirst : FirstAt fields col i f)
      (hle : (col - 1 - f.mStart).toNat ≤ f.mInfo.length) :
      FieldsStep (.removeCharacter col line) fields
        (Line.shiftFrom (f.mPosition + 1) Field.shiftLeft (fields.set i (f.withoutChar (col - 1))))

/-- No exception escapes an operation. -/
theorem apply_eq_ok (lm : LineManager) (op : Op) : lm.apply op = .ok (lm.step op) := by
  have h : ∃ lm', lm.apply op = .ok lm' := by
    cases op with
    | eventFilter col line c =>
      rcases lm.eventFilter_cases col line c with ⟨_, _, _, _, h⟩ | ⟨_, _, _, _, _, h⟩ |
        ⟨_, _, _, _, _, h⟩ | ⟨_, h⟩ <;>
      exact ⟨_, by rw [apply, h]; rfl⟩
    | addTitle str col line =>
      rcases addField_cases .title lm str col line with ⟨_, _, _, h⟩ | ⟨_, _, _, h⟩ <;> exact ⟨_, h⟩
    | addName str col line =>
      rcases addField_cases .name lm str col line with ⟨_, _, _, h⟩ | ⟨_, _, _, h⟩ <;> exact ⟨_, h⟩
    | removeCharacter col line =>
      rcases lm.removeCharacter_cases col line with ⟨h, _⟩ | ⟨_, _, _, _, h⟩ <;> exact ⟨_, h⟩
  obtain ⟨lm', h⟩ := h
  rw [step, h]

theorem step_of_apply {lm lm' : LineManager} {op : Op} (h : lm.apply op = .ok lm') : lm.step op = lm' :=
  Except.ok.inj ((lm.apply_eq_ok op).symm.trans h)

theorem step_of_eventFilter {lm lm' : LineManager} {col line : UInt32} {c : UInt8} {answer : Bool}
    (h : lm.eventFilter col line c = .ok (answer, lm')) : lm.step (.eventFilter col line c) = lm' :=
  step_of_apply (by rw [apply, h]; rfl)

/-- An operation changes nothing, or writes its own line as `FieldsStep` says. -/
theorem step_cases (lm : LineManager) (op : Op) :
    lm.step op = lm ∨
      ∃ ptr, lm.step op = lm.write op.line ptr ∧ FieldsStep op (lm.fields op.line) ptr.mFields := by
  cases op with
  | eventFilter col line c =>
    rcases lm.eventFilter_cases col line c with ⟨_, _, _, _, h⟩ | ⟨i, f, hfirst, htype, hle, h⟩ |
      ⟨_, _, _, _, _, h⟩ | ⟨hnone, h⟩
    · exact .inl (step_of_eventFilter h)
    · exact .inr ⟨_, step_of_eventFilter h, .typed hfirst htype hle⟩
    · exact .inl (step_of_eventFilter h)
    · refine .inr ⟨_, step_of_eventFilter h, ?_⟩
      rw [Op.line, Line.push, Line.setFields_mFields, mFields_lineFor]
      exact .created hnone
  | addTitle str col line =>
    rcases addField_cases .title lm str col line with ⟨_, _, _, h⟩ | ⟨hnone, ptr, hptr, h⟩
    · exact .inl (step_of_apply h)
    · exact .inr ⟨ptr, step_of_apply h, hptr ▸ .added rfl hnone⟩
  | addName str col line =>
    rcases addField_cases .name lm str col line with ⟨_, _, _, h⟩ | ⟨hnone, ptr, hptr, h⟩
    · exact .inl (step_of_apply h)
    · exact .inr ⟨ptr, step_of_apply h, hptr ▸ .added rfl hnone⟩
  | removeCharacter col line =>
    rcases lm.removeCharacter_cases col line with ⟨h, _⟩ | ⟨i, f, hfirst, hle, h⟩
    · exact .inl (step_of_apply h)
    · exact .inr ⟨_, step_of_apply h, .removed hfirst hle⟩

/-- What every `FieldsStep` of an operation keeps, the operation keeps in every line. -/
theorem fields_step_inv (P : List Field → Prop) {lm : LineManager} {op : Op}
    (hstep : ∀ after, P (lm.fields op.line) → FieldsStep op (lm.fields op.line) after → P after)
    (hinv : ∀ line, P (lm.fields line)) : ∀ line, P ((lm.step op).fields line) := by
  intro line
  rcases lm.step_cases op with h | ⟨ptr, h, hfields⟩
  · rw [h]
    exact hinv line
  · rw [h]
    by_cases hline : op.line = line
    · rw [← hline, fields_write_self]
      exact hstep _ (hinv _) hfields
    · rw [fields_write_of_ne hline]
      exact hinv line

/-- What every `FieldsStep` keeps holds in every line of every reachable state. -/
theorem fields_run_inv (P : List Field → Prop) (hnil : P [])
    (hstep : ∀ op before after, P before → FieldsStep op before after → P after) (ops : List Op) :
    ∀ line, P ((run step empty ops).fields line) := by
  refine run_inv (fun lm : LineManager => ∀ line, P (lm.fields line)) (fun lm op hinv => ?_) ops (fun line => ?_)
  · exact fields_step_inv P (fun after hbefore => hstep op _ after hbefore) hinv
  · rw [fields_empty]
    exact hnil

end LineManager

end MetaEditor
