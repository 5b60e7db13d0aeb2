import MetaEditor.Data.Indexed
import MetaEditor.Data.Size
import MetaEditor.Lib.Middle
import MetaEditor.Lib.Utf8

/-!
# The width of a text

A field is as wide as its text has characters when it is made, but a typed character and a removed one
are found by byte. So a typed character can land inside another one, and a removal can take a byte of a
character and a column with it. `KeepsWidth` says when an operation finds a place between characters.
-/

namespace MetaEditor

open Lib

namespace Field

/-- Valid text, and a column for each of its characters. -/
def Fits (f : Field) : Prop := ValidUtf8 f.mInfo ∧ f.width.toNat = utf8StringSize f.mInfo

theorem Fits.shiftRight {f : Field} (h : f.Fits) : f.shiftRight.Fits := by
  rwa [Fits, width_shiftRight, shiftRight_mInfo]

theorem Fits.shiftLeft {f : Field} (h : f.Fits) : f.shiftLeft.Fits := by
  rwa [Fits, width_shiftLeft, shiftLeft_mInfo]

/-- A column in range is an offset into the text. -/
theorem Fits.offset_le {f : Field} {col : UInt32} (h : f.Fits) (hin : f.atRange col = true) :
    (col - f.mStart).toNat ≤ f.mInfo.length :=
  (offset_le_width hin).trans (h.2.le.trans (utf8StringSize_le _))

end Field

/-- The size of a text with a 7-bit byte in it. -/
theorem utf8StringSize_middle {before after : Bytes} {b : UInt8} (hb : b < 128) (hbefore : ValidUtf8 before)
    (hafter : ValidUtf8 after) :
    utf8StringSize (before ++ b :: after) = utf8StringSize (before ++ after) + 1 := by
  have hmiddle : ValidUtf8 (before ++ b :: after) := (validUtf8_around_ascii hb).mpr ⟨hbefore, hafter⟩
  rw [utf8StringSize_eq_countP hmiddle.head, utf8StringSize_eq_countP (hbefore.append hafter).head, List.countP_append,
    List.countP_append, List.countP_cons_of_pos (by simpa using beginsChar_of_ascii hb), Nat.add_assoc]

namespace Field

variable {f : Field} {col : UInt32} {c : UInt8}

/-- A 7-bit character fits when it is typed between characters, and the width can still be counted. -/
theorem fits_withChar_iff (h : f.Fits) (hc : c < 128) :
    (f.withChar c col).Fits ↔
      (∀ b ∈ f.mInfo[(col - f.mStart).toNat]?, BeginsChar b) ∧ utf8StringSize f.mInfo + 1 < 2 ^ 32 := by
  obtain ⟨hvalid, hwidth⟩ := h
  generalize hk : (col - f.mStart).toNat = k
  have hinfo : (f.withChar c col).mInfo = f.mInfo.take k ++ c :: f.mInfo.drop k := by
    simp only [withChar, hk, List.append_assoc, List.singleton_append]
  have hsplit : f.mInfo.take k ++ f.mInfo.drop k = f.mInfo := List.take_append_drop k f.mInfo
  have hplace : ValidUtf8 (f.withChar c col).mInfo ↔ ∀ b ∈ f.mInfo[k]?, BeginsChar b := by
    rw [hinfo, validUtf8_around_ascii hc, ← List.head?_drop]
    exact ⟨fun h => h.2.head, fun h => ValidUtf8.split (hsplit.symm ▸ hvalid) h⟩
  unfold Fits
  rw [hplace]
  refine and_congr_right fun hbegins => ?_
  obtain ⟨hbefore, hafter⟩ := (validUtf8_around_ascii hc).mp (hinfo ▸ hplace.mpr hbegins)
  have hsize : utf8StringSize (f.withChar c col).mInfo = utf8StringSize f.mInfo + 1 := by
    rw [hinfo, utf8StringSize_middle hc hbefore hafter, hsplit]
  rw [hsize, width_withChar, toNat_add_one, hwidth]
  exact Nat.mod_eq_iff_lt (by decide)

/-- A removal fits when it takes a 7-bit byte. -/
theorem fits_withoutChar_iff (h : f.Fits) (hle : (col - 1 - f.mStart).toNat ≤ f.mInfo.length) :
    (f.withoutChar (col - 1)).Fits ↔ ∃ b ∈ f.mInfo[(col - 1 - f.mStart).toNat]?, b < 128 := by
  obtain ⟨hvalid, hwidth⟩ := h
  generalize hk : (col - 1 - f.mStart).toNat = k at hle
  have hinfo : (f.withoutChar (col - 1)).mInfo = f.mInfo.take k ++ f.mInfo.drop (k + 1) := by
    simp only [withoutChar, hk]
  rcases Nat.lt_or_eq_of_le hle with hlt | rfl
  · obtain ⟨b, hb⟩ : ∃ b, f.mInfo[k]? = some b := ⟨_, List.getElem?_eq_getElem hlt⟩
    have hsplit : f.mInfo = f.mInfo.take k ++ b :: f.mInfo.drop (k + 1) := by
      obtain ⟨hk', rfl⟩ := List.getElem?_eq_some_iff.mp hb
      rw [← List.drop_eq_getElem_cons hk', List.take_append_drop]
    rw [hsplit] at hvalid
    rw [hb]
    simp only [Option.mem_def, Option.some.injEq, exists_eq_left']
    refine ⟨fun hfits => ?_, fun hascii => ?_⟩
    · by_contra hascii
      exact hvalid.not_without hascii (hinfo ▸ hfits.1)
    · obtain ⟨hbefore, hafter⟩ := (validUtf8_around_ascii hascii).mp hvalid
      have hsize := utf8StringSize_middle hascii hbefore hafter
      rw [← hsplit] at hsize
      refine ⟨hinfo ▸ hbefore.append hafter, ?_⟩
      rw [hinfo, width_withoutChar, toNat_sub_one (by omega)]
      omega
  · -- at the end nothing is erased, but the end moves
    refine iff_of_false (fun hfits => ?_) (by simp)
    have hsame : (f.withoutChar (col - 1)).mInfo = f.mInfo := by
      rw [hinfo, List.take_length, List.drop_of_length_le (Nat.le_succ _), List.append_nil]
    have hequal : f.width - 1 = f.width := by
      rw [← width_withoutChar f (col - 1)]
      exact UInt32.toNat_inj.mp (hfits.2.trans (by rw [hsame, hwidth]))
    grind

theorem fits_newText (pos : Nat) (col : UInt32) (hc : c < 128) : (newText pos col c).Fits := by
  refine ⟨validUtf8_of_ascii hc, ?_⟩
  rw [width_newText]
  exact (utf8StringSize_of_ascii (List.forall_mem_singleton.mpr hc)).symm

theorem fits_newString_iff (type : FieldType) (pos : Nat) (col : UInt32) {str : Bytes} (h : ValidUtf8 str) :
    (newString type pos col str).Fits ↔ utf8StringSize str < 2 ^ 32 := by
  have hinfo : (newString type pos col str).mInfo = str := rfl
  rw [Fits, width_newString, hinfo, UInt32.toNat_ofNat', and_iff_right h]
  exact Nat.mod_eq_iff_lt (by decide)

end Field

/-- Shifting does not change what fits. -/
theorem fits_shiftFrom_iff {shift : Field → Field} (hwidth : ∀ o, (shift o).width = o.width)
    (hinfo : ∀ o, (shift o).mInfo = o.mInfo) (n : Nat) (fields : List Field) :
    (∀ g ∈ Line.shiftFrom n shift fields, g.Fits) ↔ ∀ g ∈ fields, g.Fits := by
  have hsame : ∀ o, (shift o).Fits = o.Fits := fun o => by rw [Field.Fits, hwidth, hinfo, Field.Fits]
  calc (∀ g ∈ Line.shiftFrom n shift fields, g.Fits)
      ↔ ∀ p ∈ (Line.shiftFrom n shift fields).map Field.Fits, p :=
        (List.forall_mem_map (P := fun p => p)).symm
    _ ↔ ∀ p ∈ fields.map Field.Fits, p := by rw [Line.map_shiftFrom hsame]
    _ ↔ ∀ g ∈ fields, g.Fits := List.forall_mem_map (P := fun p => p)

/-- Among fields that fit an edited one decides. -/
theorem fits_set_iff {fields : List Field} {i : Nat} {f' : Field} (h : ∀ g ∈ fields, g.Fits) (hi : i < fields.length) :
    (∀ g ∈ fields.set i f', g.Fits) ↔ f'.Fits := by
  refine ⟨fun hall => hall f' (List.mem_set hi f'), fun hf' g hg => ?_⟩
  rcases List.mem_or_eq_of_mem_set hg with hg | rfl
  · exact h g hg
  · exact hf'

namespace LineManager

/-- All fields of the structure fit. -/
def Sized (lm : LineManager) : Prop := ∀ line, ∀ f ∈ lm.fields line, f.Fits

/-- Typed characters have seven bits, and strings are valid. -/
def Op.ValidText : Op → Prop
  | .eventFilter _ _ c => c < 128
  | .addTitle str _ _ | .addName str _ _ => ValidUtf8 str
  | .removeCharacter _ _ => True

/-- The operation finds a place between characters, and the characters can be counted. -/
def KeepsWidth (fields : List Field) : Op → Prop
  | .eventFilter col _ _ =>
    ∀ f ∈ fields.find? (·.atRange col), f.mType ≠ .title →
      (∀ b ∈ f.mInfo[(col - f.mStart).toNat]?, BeginsChar b) ∧ utf8StringSize f.mInfo + 1 < 2 ^ 32
  | .addTitle str col _ | .addName str col _ =>
    fields.find? (·.atRange col) = none → utf8StringSize (cString str) < 2 ^ 32
  | .removeCharacter col _ =>
    ∀ f ∈ fields.find? (·.atRange col), (col - 1 - f.mStart).toNat ≤ f.mInfo.length →
      ∃ b ∈ f.mInfo[(col - 1 - f.mStart).toNat]?, b < 128

instance (fields : List Field) : (op : Op) → Decidable (KeepsWidth fields op)
  | .eventFilter _ _ _ => inferInstanceAs (Decidable (∀ f ∈ fields.find? _, _))
  | .addTitle _ _ _ | .addName _ _ _ => inferInstanceAs (Decidable (_ → _))
  | .removeCharacter _ _ => inferInstanceAs (Decidable (∀ f ∈ fields.find? _, _))

variable {lm : LineManager} {col line : UInt32}

theorem sized_write_iff (h : Sized lm) (line : UInt32) (ptr : Line) :
    Sized (lm.write line ptr) ↔ ∀ f ∈ ptr.mFields, f.Fits := by
  constructor
  · intro hall f hf
    exact hall line f (by rwa [fields_write_self])
  · intro hptr line' f hf
    by_cases hline : line = line'
    · subst hline
      rw [fields_write_self] at hf
      exact hptr f hf
    · rw [fields_write_of_ne hline] at hf
      exact h line' f hf

/-- A new field decides. -/
theorem sized_push_iff (h : Sized lm) (line : UInt32) (f : Field) :
    Sized (lm.write line ((lm.lineFor line).push f)) ↔ f.Fits := by
  rw [sized_write_iff h, Line.push, Line.setFields_mFields, mFields_lineFor, List.forall_mem_append,
    List.forall_mem_singleton]
  exact and_iff_right (h line)

theorem find?_of_outside {fields : List Field} (hnone : ∀ g ∈ fields, g.atRange col = false) :
    fields.find? (·.atRange col) = none :=
  List.find?_eq_none.mpr fun g hg => by simp [hnone g hg]

/-- A typed character. -/
theorem sized_eventFilter_iff (h : Sized lm) {c : UInt8} (hc : c < 128) :
    Sized (lm.step (.eventFilter col line c)) ↔ KeepsWidth (lm.fields line) (.eventFilter col line c) := by
  by_cases hnone : ∀ g ∈ lm.fields line, g.atRange col = false
  · have hstep : lm.step (.eventFilter col line c) = _ :=
      step_of_eventFilter (eventFilter_of_outside hnone)
    rw [hstep, sized_push_iff h, KeepsWidth, find?_of_outside hnone]
    exact iff_of_true (Field.fits_newText _ _ hc) fun f hf => absurd hf (Option.not_mem_none f)
  · obtain ⟨i, f, hfirst⟩ := exists_firstAt hnone
    rw [KeepsWidth, hfirst.find?]
    simp only [Option.mem_def, Option.some.injEq, forall_eq']
    have hfits := h line f hfirst.mem
    have hle := hfits.offset_le hfirst.inRange
    by_cases htitle : f.mType = .title
    · have hstep : lm.step (.eventFilter col line c) = lm :=
        step_of_eventFilter (eventFilter_of_title hfirst htitle)
      rw [hstep]
      exact iff_of_true h fun hne => absurd htitle hne
    · have hstep : lm.step (.eventFilter col line c) = _ :=
        step_of_eventFilter (eventFilter_of_le hfirst htitle hle)
      rw [hstep, sized_write_iff h, Line.setFields_mFields,
        fits_shiftFrom_iff Field.width_shiftRight Field.shiftRight_mInfo, fits_set_iff (h line) hfirst.lt,
        Field.fits_withChar_iff hfits hc]
      exact ⟨fun hplace _ => hplace, fun hplace => hplace htitle⟩

/-- An added string. -/
theorem sized_addField_iff (h : Sized lm) {op : Op} {type : FieldType} {str : Bytes} (hstr : ValidUtf8 str)
    (hop : lm.apply op = addField type lm str col line) :
    Sized (lm.step op) ↔ ((lm.fields line).find? (·.atRange col) = none → utf8StringSize (cString str) < 2 ^ 32) := by
  by_cases hnone : ∀ g ∈ lm.fields line, g.atRange col = false
  · have hstep : lm.step op = _ := step_of_apply (hop.trans (addField_of_outside hnone))
    rw [hstep, sized_push_iff h, Field.fits_newString_iff _ _ _ hstr.cString]
    exact ⟨fun hsize _ => hsize, fun hsize => hsize (find?_of_outside hnone)⟩
  · obtain ⟨i, f, hfirst⟩ := exists_firstAt hnone
    have hstep : lm.step op = lm := step_of_apply (hop.trans (addField_of_firstAt hfirst))
    rw [hstep, hfirst.find?]
    exact iff_of_true h nofun

/-- A removal. -/
theorem sized_removeCharacter_iff (h : Sized lm) :
    Sized (lm.step (.removeCharacter col line)) ↔ KeepsWidth (lm.fields line) (.removeCharacter col line) := by
  by_cases hnone : ∀ g ∈ lm.fields line, g.atRange col = false
  · have hstep : lm.step (.removeCharacter col line) = lm := step_of_apply (removeCharacter_of_outside hnone)
    rw [hstep, KeepsWidth, find?_of_outside hnone]
    exact iff_of_true h fun f hf => absurd hf (Option.not_mem_none f)
  · obtain ⟨i, f, hfirst⟩ := exists_firstAt hnone
    rw [KeepsWidth, hfirst.find?]
    simp only [Option.mem_def, Option.some.injEq, forall_eq']
    have hfits := h line f hfirst.mem
    by_cases hle : (col - 1 - f.mStart).toNat ≤ f.mInfo.length
    · have hstep : lm.step (.removeCharacter col line) = _ := step_of_apply (removeCharacter_of_le hfirst hle)
      rw [hstep, sized_write_iff h, Line.setFields_mFields,
        fits_shiftFrom_iff Field.width_shiftLeft Field.shiftLeft_mInfo, fits_set_iff (h line) hfirst.lt,
        Field.fits_withoutChar_iff hfits hle]
      exact ⟨fun hbyte _ => hbyte, fun hbyte => hbyte hle⟩
    · have hstep : lm.step (.removeCharacter col line) = lm :=
        step_of_apply (removeCharacter_of_lt hfirst (not_le.mp hle))
      rw [hstep]
      exact iff_of_true h fun hle' => absurd hle' hle

/-- In a structure whose fields fit an operation keeps them so exactly when it meets the condition. -/
theorem sized_step_iff (h : Sized lm) {op : Op} (hop : op.ValidText) :
    Sized (lm.step op) ↔ KeepsWidth (lm.fields op.line) op := by
  cases op with
  | eventFilter col line c => exact sized_eventFilter_iff h hop
  | addTitle str col line => exact sized_addField_iff h hop rfl
  | addName str col line => exact sized_addField_iff h hop rfl
  | removeCharacter col line => exact sized_removeCharacter_iff h

/-- The states of a run all have valid texts of the width of their fields exactly when every operation finds
a place between characters. -/
theorem sized_iff {ops : List Op} (htext : ∀ op ∈ ops, op.ValidText) :
    StepsMeet step (fun lm op => Sized (lm.step op)) empty ops ↔
      StepsMeet step (fun lm op => KeepsWidth (lm.fields op.line) op) empty ops := by
  have hempty : Sized empty := fun line => by
    rw [fields_empty]
    exact List.forall_mem_nil _
  have htexts : StepsMeet step (fun _ op => op.ValidText) empty ops := stepsMeet_forall_iff.mpr htext
  exact stepsMeet_iff_within Sized (fun lm op h hop => sized_step_iff h hop)
    (fun lm op h hop hkeeps => (sized_step_iff h hop).mpr hkeeps) hempty htexts

/-- A title of one character and a text right of it. -/
def accented : List Op := [.addTitle [195, 169] 0 0, .eventFilter 5 0 120, .removeCharacter 6 0]

theorem sized_iff_accented :
    StepsMeet step (fun lm op => Sized (lm.step op)) empty accented ↔
      StepsMeet step (fun lm op => KeepsWidth (lm.fields op.line) op) empty accented := by
  refine sized_iff ?_
  have htitle : ValidUtf8 [195, 169] := ⟨[Char.ofNat 233], by decide +kernel⟩
  have hchar : (120 : UInt8) < 128 := by decide
  exact List.forall_mem_cons.mpr ⟨htitle, List.forall_mem_cons.mpr ⟨hchar, List.forall_mem_singleton.mpr trivial⟩⟩

/-- A removal behind a character of two bytes leaves the second one. -/
theorem not_sized :
    ¬∀ ops : List Op, (∀ op ∈ ops, op.ValidText) → StepsMeet step (fun lm op => Sized (lm.step op)) empty ops := by
  intro h
  have htext : ∀ op ∈ [Op.addName [195, 169] 0 0, .removeCharacter 1 0], op.ValidText := by
    refine List.forall_mem_cons.mpr ⟨⟨[Char.ofNat 233], by decide +kernel⟩, ?_⟩
    exact List.forall_mem_singleton.mpr trivial
  have hsized := (h _ htext).2.1
  have hfields : ((empty.step (.addName [195, 169] 0 0)).step (.removeCharacter 1 0)).fields 0 =
      [{ mPosition := 0, mType := .name, mStart := 0, mEnd := 0, mInfo := [169] }] := by decide +kernel
  have hvalid := (hsized 0 _ (hfields ▸ List.mem_singleton.mpr rfl)).1
  exact absurd (hvalid.head 169 rfl) (by decide)

end LineManager

end MetaEditor
