import MetaEditor.Data.Indexed

/-!
# No keystroke is lost

The handler of `eventFilter` serves two exceptions: the line does not exist, or the offset of an
insertion is past the end of a field's text. In the second case it would make a line that the map does
not take, and the character would be gone although the answer is `true`. It never comes to that: the
columns a field takes, modulo `2 ^ 32`, are at most the bytes of its text (`WidthLe`), and a column
found in range is at most that many columns from the start. The law survives multi-byte text, which
takes fewer columns than bytes, and bounds that wrap, which move together. Only an erasure at the
first column of a field could break it, and the offset `2 ^ 32 - 1` it asks for is past the end of any
text below that size.
-/

namespace MetaEditor

open Lib

/-! ### The width of a field is at most its length -/

/-- The columns of every field are at most the bytes of its text. -/
def WidthLe (fields : List Field) : Prop := ∀ f ∈ fields, f.width.toNat ≤ f.mInfo.length

namespace Field

theorem width_withChar_le {f : Field} {c : UInt8} {pos : UInt32} (hle : (pos - f.mStart).toNat ≤ f.mInfo.length)
    (hwidth : f.width.toNat ≤ f.mInfo.length) :
    (f.withChar c pos).width.toNat ≤ (f.withChar c pos).mInfo.length := by
  rw [width_withChar, length_withChar hle, toNat_add_one]
  exact (Nat.mod_le _ _).trans (Nat.succ_le_succ hwidth)

/-- An erasure that does not throw takes a column and a byte. -/
theorem width_withoutChar_le {f : Field} {col : UInt32} (hrange : f.atRange col = true)
    (hle : (col - 1 - f.mStart).toNat ≤ f.mInfo.length) (hsize : f.mInfo.length < 2 ^ 31)
    (hwidth : f.width.toNat ≤ f.mInfo.length) :
    (f.withoutChar (col - 1)).width.toNat ≤ (f.withoutChar (col - 1)).mInfo.length := by
  have hoff := offset_later hrange (ne_start_of_le hle (by omega))
  have hcols := offset_le_width hrange
  have hlen : (f.withoutChar (col - 1)).mInfo.length + 1 = f.mInfo.length := length_withoutChar (by omega)
  rw [width_withoutChar, toNat_sub_one (by omega)]
  omega

theorem width_newText_le (pos : Nat) (col : UInt32) (c : UInt8) :
    (newText pos col c).width.toNat ≤ (newText pos col c).mInfo.length := by
  rw [width_newText]
  rfl

theorem width_newString_le (type : FieldType) (pos : Nat) (col : UInt32) (str : Bytes) :
    (newString type pos col str).width.toNat ≤ (newString type pos col str).mInfo.length := by
  rw [width_newString, UInt32.toNat_ofNat']
  exact (Nat.mod_le _ _).trans (utf8StringSize_le str)

end Field

namespace LineManager

/-- Every text is shorter than `n` bytes. -/
def TextBelow (n : Nat) (lm : LineManager) : Prop := ∀ line, ∀ f ∈ lm.fields line, f.mInfo.length < n

/-- The states that operations reach from the empty structure, while every text, and so in particular
the total text, stays below `2 ^ 31` bytes. -/
inductive Reachable : LineManager → Prop
  | empty : Reachable empty
  | step {lm : LineManager} (op : Op) (h : Reachable lm) (hsize : TextBelow (2 ^ 31) (lm.step op)) :
      Reachable (lm.step op)

theorem Reachable.textBelow {lm : LineManager} (h : Reachable lm) : TextBelow (2 ^ 31) lm := by
  cases h with
  | empty => intro line f hf; simp at hf
  | step op _ hsize => exact hsize

theorem widthLe_fieldsStep {op : Op} {fields after : List Field} (hsize : ∀ f ∈ fields, f.mInfo.length < 2 ^ 31)
    (h : WidthLe fields) (hstep : FieldsStep op fields after) : WidthLe after := by
  have hedit : ∀ {shift : Field → Field} {i : Nat} {f f' : Field},
      (∀ o, (shift o).width = o.width) → (∀ o, (shift o).mInfo = o.mInfo) →
      f'.width.toNat ≤ f'.mInfo.length →
      WidthLe (Line.shiftFrom (f.mPosition + 1) shift (fields.set i f')) := by
    intro shift i f f' hw hm hf' g hg
    have hmap := Line.map_shiftFrom (g := fun o => (o.width, o.mInfo)) (fun o => by rw [hw, hm])
      (f.mPosition + 1) (fields.set i f')
    have hmem := List.mem_map_of_mem (f := fun o : Field => (o.width, o.mInfo)) hg
    rw [hmap] at hmem
    obtain ⟨o, ho, heq⟩ := List.mem_map.mp hmem
    rw [Prod.mk.injEq] at heq
    rw [← heq.1, ← heq.2]
    rcases List.mem_or_eq_of_mem_set ho with ho | rfl
    · exact h o ho
    · exact hf'
  cases hstep with
  | typed hfirst _ hle =>
    exact hedit Field.width_shiftRight Field.shiftRight_mInfo
      (Field.width_withChar_le hle (h _ hfirst.mem))
  | created _ =>
    intro g hg
    rcases List.mem_append.mp hg with hg | hg
    · exact h g hg
    · rw [List.mem_singleton.mp hg]
      exact Field.width_newText_le _ _ _
  | added _ _ =>
    intro g hg
    rcases List.mem_append.mp hg with hg | hg
    · exact h g hg
    · rw [List.mem_singleton.mp hg]
      exact Field.width_newString_le _ _ _ _
  | removed hfirst hle =>
    exact hedit Field.width_shiftLeft Field.shiftLeft_mInfo
      (Field.width_withoutChar_le hfirst.inRange hle (hsize _ hfirst.mem) (h _ hfirst.mem))

theorem Reachable.widthLe {lm : LineManager} (h : Reachable lm) : ∀ line, WidthLe (lm.fields line) := by
  induction h with
  | empty => intro line f hf; simp at hf
  | step op h _ ih => exact fields_step_inv WidthLe (fun _ => widthLe_fieldsStep (h.textBelow _)) ih

theorem Reachable.indexed {lm : LineManager} (h : Reachable lm) : ∀ line, Indexed (lm.fields line) := by
  induction h with
  | empty =>
    intro line
    rw [fields_empty]
    exact nofun
  | step op _ _ ih => exact fields_step_inv Indexed (fun _ => indexed_fieldsStep) ih

/-- A column in range is an offset into the text. -/
theorem Reachable.offset_le {lm : LineManager} (h : Reachable lm) {col line : UInt32} {i : Nat} {f : Field}
    (hfirst : FirstAt (lm.fields line) col i f) : (col - f.mStart).toNat ≤ f.mInfo.length :=
  (Field.offset_le_width hfirst.inRange).trans (h.widthLe line f hfirst.mem)

/-! ### What a keystroke does -/

/-- The texts of a line, field by field. -/
def texts (lm : LineManager) (line : UInt32) : List Bytes := (lm.fields line).map Field.mInfo

/-- Exactly one byte more: `c`, inserted in one text of the line or the whole text of a new field. -/
structure OneByteMore (lm lm' : LineManager) (line : UInt32) (c : UInt8) : Prop where
  others : ∀ line', line' ≠ line → lm'.get? line' = lm.get? line'
  typed : (∃ i old k, (lm.texts line)[i]? = some old ∧ k ≤ old.length ∧
      lm'.texts line = (lm.texts line).set i (old.take k ++ [c] ++ old.drop k)) ∨
    lm'.texts line = lm.texts line ++ [[c]]
  bytes : (lm'.texts line).flatten.length = (lm.texts line).flatten.length + 1

theorem length_flatten_set {texts : List Bytes} {i : Nat} {old : Bytes} (h : texts[i]? = some old) (new : Bytes) :
    (texts.set i new).flatten.length + old.length = texts.flatten.length + new.length := by
  induction texts generalizing i with
  | nil => simp at h
  | cons t texts ih =>
    cases i with
    | zero =>
      obtain rfl : t = old := by simpa using h
      simp only [List.set_cons_zero, List.flatten_cons, List.length_append]
      omega
    | succ i =>
      have := ih (i := i) (by simpa using h)
      simp only [List.set_cons_succ, List.flatten_cons, List.length_append]
      omega

theorem get?_write_of_ne {lm : LineManager} {line line' : UInt32} (h : line' ≠ line) (ptr : Line) :
    (lm.write line ptr).get? line' = lm.get? line' := by
  rw [get?_write, if_neg (Ne.symm h)]

theorem oneByteMore_edit {lm : LineManager} {line col : UInt32} {i : Nat} {f : Field} (c : UInt8)
    (hf : (lm.fields line)[i]? = some f) (hle : (col - f.mStart).toNat ≤ f.mInfo.length) (ptr : Line) (start : Nat) :
    OneByteMore lm (lm.write line (ptr.setFields
      (Line.shiftFrom start Field.shiftRight ((lm.fields line).set i (f.withChar c col))))) line c := by
  have hold : (lm.texts line)[i]? = some f.mInfo := by rw [texts, List.getElem?_map, hf]; rfl
  have hnew : (lm.write line (ptr.setFields (Line.shiftFrom start Field.shiftRight
      ((lm.fields line).set i (f.withChar c col))))).texts line = (lm.texts line).set i (f.withChar c col).mInfo := by
    rw [texts, fields_write_self, Line.setFields_mFields, Line.map_shiftFrom Field.shiftRight_mInfo, List.map_set, texts]
  refine ⟨fun line' h => get?_write_of_ne h _, .inl ⟨i, f.mInfo, _, hold, hle, hnew⟩, ?_⟩
  have hlen := length_flatten_set hold (f.withChar c col).mInfo
  have hone := Field.length_withChar hle c
  rw [hnew]
  omega

theorem oneByteMore_create {lm : LineManager} {line : UInt32} {ptr : Line} {c : UInt8}
    (h : ptr.mFields.map Field.mInfo = lm.texts line ++ [[c]]) : OneByteMore lm (lm.write line ptr) line c := by
  have hnew : (lm.write line ptr).texts line = lm.texts line ++ [[c]] := by
    rw [texts, fields_write_self, h]
  refine ⟨fun line' hne => get?_write_of_ne hne _, .inr hnew, ?_⟩
  rw [hnew, List.flatten_append, List.length_append]
  rfl

/-- The column is an offset into the text of the field found there. -/
def OffsetInText (lm : LineManager) (col line : UInt32) : Prop :=
  ∀ i f, FirstAt (lm.fields line) col i f → (col - f.mStart).toNat ≤ f.mInfo.length

theorem Reachable.offsetInText {lm : LineManager} (h : Reachable lm) (col line : UInt32) : lm.OffsetInText col line :=
  fun _ _ => h.offset_le

/-- At an editable column a character is always taken: it goes into the structure, or is lost. -/
theorem eventFilter_of_isEditable {lm : LineManager} {col line : UInt32} (hedit : lm.isEditable col line = true)
    (c : UInt8) :
    ∃ lm', lm.eventFilter col line c = .ok (true, lm') ∧
      (lm.OffsetInText col line ∧ OneByteMore lm lm' line c ∨ ¬lm.OffsetInText col line ∧ lm' = lm) := by
  rcases lm.eventFilter_cases col line c with ⟨i, f, hfirst, htitle, -⟩ |
    ⟨i, f, hfirst, -, hle, hcall⟩ | ⟨i, f, hfirst, -, hlt, hcall⟩ | ⟨hnone, hcall⟩
  · exact absurd htitle (not_title_of_isEditable hedit hfirst)
  · refine ⟨_, hcall, .inl ⟨fun j g hg => ?_, oneByteMore_edit c hfirst.get hle _ _⟩⟩
    obtain ⟨-, rfl⟩ := hg.unique hfirst
    exact hle
  · exact ⟨_, hcall, .inr ⟨fun hin => absurd (hin i f hfirst) (Nat.not_le_of_lt hlt), rfl⟩⟩
  · refine ⟨_, hcall, .inl ⟨fun j g hg => absurd hnone hg.not_outside, oneByteMore_create ?_⟩⟩
    rw [Line.push, Line.setFields_mFields, mFields_lineFor, List.map_append]
    rfl

/-- In every reachable state a call of `eventFilter` refuses the character and changes nothing, or
takes it and the structure holds exactly that byte more. The handler is only for a missing line. -/
theorem eventFilter_loses_nothing {lm : LineManager} (h : Reachable lm) (col line : UInt32) (c : UInt8) :
    (lm.eventFilter col line c = .ok (false, lm) ∨
      ∃ lm', lm.eventFilter col line c = .ok (true, lm') ∧ OneByteMore lm lm' line c) ∧
    (∀ e, lm.eventFilterTry col line c = .error e → lm.get? line = none) := by
  refine ⟨?_, fun e he => ?_⟩
  · by_cases hedit : lm.isEditable col line = true
    · obtain ⟨lm', hcall, ⟨-, hone⟩ | ⟨hout, -⟩⟩ := eventFilter_of_isEditable hedit c
      · exact .inr ⟨lm', hcall, hone⟩
      · exact absurd (h.offsetInText col line) hout
    · obtain ⟨i, f, hfirst, htitle⟩ := isEditable_eq_false.mp (Bool.not_eq_true _ ▸ hedit)
      exact .inl (eventFilter_of_title hfirst htitle)
  · by_contra hne
    obtain ⟨ptr, hget⟩ := Option.ne_none_iff_exists'.mp hne
    cases hsearch : ptr.searchAtCol col with
    | none =>
      simp [eventFilterTry, lineAt, hget, hsearch, bind, Except.bind, pure, Except.pure] at he
    | some i =>
      have hfirst : FirstAt (lm.fields line) col i ptr.mFields[i] := by
        rw [fields_of_get? hget]
        exact Line.firstAt_of_searchAtCol hsearch
      have hle := h.offset_le hfirst
      simp only [eventFilterTry, lineAt, hget, hsearch, bind, Except.bind, pure, Except.pure] at he
      split_ifs at he
      rw [Field.appendChar_of_le hle] at he
      cases he

/-- One name in an empty structure. -/
theorem reachable_addName {str : Bytes} (hsize : (cString str).length < 2 ^ 31) (col line : UInt32) :
    Reachable (empty.step (.addName str col line)) := by
  refine .step (.addName str col line) .empty ?_
  refine fields_step_inv (fun fields => ∀ f ∈ fields, f.mInfo.length < 2 ^ 31) (fun after _ hstep => ?_)
    Reachable.empty.textBelow
  rw [fields_empty] at hstep
  cases hstep with
  | added hop _ =>
    simp only [Op.adds, Option.some.injEq, Prod.mk.injEq] at hop
    obtain ⟨-, rfl, -⟩ := hop
    rw [List.nil_append, List.forall_mem_singleton]
    exact hsize

/-- A multi-byte name, and a character typed at its last column. -/
theorem eventFilter_loses_nothing_name :
    let lm := empty.step (.addName [195, 169, 97] 4 2)
    (lm.eventFilter 6 2 120 = .ok (false, lm) ∨
      ∃ lm', lm.eventFilter 6 2 120 = .ok (true, lm') ∧ OneByteMore lm lm' 2 120) ∧
    (∀ e, lm.eventFilterTry 6 2 120 = .error e → lm.get? 2 = none) :=
  eventFilter_loses_nothing (reachable_addName (by decide) 4 2) 6 2 120

end LineManager

end MetaEditor
