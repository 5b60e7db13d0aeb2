import MetaEditor.Data.Indexed
import MetaEditor.Data.Size

/-!
# Typing a string and adding it

A string that is typed right of all fields of a line, character by character, makes one field and then
grows it, so that it leaves what `addName` leaves, with a text instead of a name. No operation tells the
two apart: all that is ever asked of a type is whether it is `title`.
-/

namespace MetaEditor

open Lib

namespace LineManager

/-! ### Typing -/

/-- One `eventFilter` for each character, from a column on. -/
def typing (col line : UInt32) : Bytes → List Op
  | [] => []
  | c :: s => .eventFilter col line c :: typing (col + 1) line s

/-- A field that was typed. -/
abbrev typedField (pos : Nat) (col : UInt32) (s : Bytes) : Field := .newString .text pos col s

theorem toNat_add_ofNat {col : UInt32} {n : Nat} (h : col.toNat + n < 2 ^ 32) :
    (col + UInt32.ofNat n).toNat = col.toNat + n := by
  rw [UInt32.toNat_add, UInt32.toNat_ofNat']
  omega

theorem toNat_offset {n : Nat} (h : n < 2 ^ 32) (col : UInt32) : (col + UInt32.ofNat n - col).toNat = n := by
  rw [show col + UInt32.ofNat n - col = UInt32.ofNat n by grind, UInt32.toNat_ofNat', Nat.mod_eq_of_lt h]

/-- The column behind a typed field finds the field. -/
theorem firstAt_typed {ptr : Line} {col : UInt32} {p : Bytes} (hends : ∀ f ∈ ptr.mFields, f.mEnd < col)
    (hascii : ∀ b ∈ p, b < 128) (hfit : col.toNat + p.length < 2 ^ 32) :
    FirstAt (ptr.push (typedField ptr.mFields.length col p)).mFields (col + UInt32.ofNat p.length) ptr.mFields.length
      (typedField ptr.mFields.length col p) := by
  have hcol := toNat_add_ofNat hfit
  have hle : col ≤ col + UInt32.ofNat p.length := by
    rw [UInt32.le_iff_toNat_le, hcol]
    exact Nat.le_add_right _ _
  refine ⟨List.getElem?_concat_length, ?_, fun j g hj hg => ?_⟩
  · rw [Field.atRange_eq_true]
    refine ⟨hle, ?_⟩
    show col + UInt32.ofNat p.length ≤ col + UInt32.ofNat (utf8StringSize p)
    rw [utf8StringSize_of_ascii hascii]
    exact UInt32.le_refl _
  · rw [Line.push, Line.setFields_mFields, List.getElem?_append_left hj] at hg
    have hend := hends g (List.mem_of_getElem? hg)
    rw [Field.atRange_eq_false]
    rintro ⟨-, hin⟩
    exact absurd (UInt32.lt_of_lt_of_le hend (UInt32.le_trans hle hin)) (UInt32.lt_irrefl _)

/-- The field takes the next character at its end. -/
theorem withChar_typed {ptr : Line} {col : UInt32} {p : Bytes} {c : UInt8} (hascii : ∀ b ∈ p ++ [c], b < 128)
    (hfit : col.toNat + p.length < 2 ^ 32) :
    (typedField ptr.mFields.length col p).withChar c (col + UInt32.ofNat p.length) =
      typedField ptr.mFields.length col (p ++ [c]) := by
  have hoff : (col + UInt32.ofNat p.length - col).toNat = p.length := toNat_offset (by omega) col
  have hsize : utf8StringSize p = p.length := utf8StringSize_of_ascii fun b hb => hascii b (List.mem_append_left _ hb)
  simp only [Field.withChar, Field.newString, hoff, hsize, utf8StringSize_of_ascii hascii, List.take_length,
    List.drop_length, List.append_nil, List.length_append, List.length_singleton, Field.mk.injEq, true_and, and_true]
  rw [UInt32.ofNat_add, ← UInt32.add_assoc]
  rfl

theorem step_typed {ptr : Line} {col line : UInt32} (hends : ∀ f ∈ ptr.mFields, f.mEnd < col) {p : Bytes} {c : UInt8}
    (hascii : ∀ b ∈ p ++ [c], b < 128) (hfit : col.toNat + p.length < 2 ^ 32) (lm : LineManager) :
    (lm.write line (ptr.push (typedField ptr.mFields.length col p))).step
        (.eventFilter (col + UInt32.ofNat p.length) line c) =
      lm.write line (ptr.push (typedField ptr.mFields.length col (p ++ [c]))) := by
  have hfirst := firstAt_typed hends (fun b hb => hascii b (List.mem_append_left _ hb)) hfit
  rw [← fields_write_self lm line (ptr.push _)] at hfirst
  have htype : (typedField ptr.mFields.length col p).mType ≠ .title := FieldType.noConfusion
  have hle : (col + UInt32.ofNat p.length - col).toNat ≤ p.length := (toNat_offset (by omega) col).le
  have hedit : Line.shiftFrom (ptr.mFields.length + 1) Field.shiftRight
      ((ptr.mFields ++ [typedField ptr.mFields.length col p]).set ptr.mFields.length
        (typedField ptr.mFields.length col (p ++ [c]))) =
      ptr.mFields ++ [typedField ptr.mFields.length col (p ++ [c])] := Line.edit_middle _ [] _ _ _
  rw [step_of_eventFilter (eventFilter_of_le hfirst htype hle), fields_write_self, lineFor_write_self,
    withChar_typed hascii hfit, write_write]
  exact congrArg (fun fields => lm.write line (ptr.setFields fields)) hedit

/-- By induction on what is still to be typed. -/
theorem run_typing {ptr : Line} {col line : UInt32} (hends : ∀ f ∈ ptr.mFields, f.mEnd < col) {p s : Bytes}
    (hascii : ∀ b ∈ p ++ s, b < 128) (hfit : col.toNat + (p ++ s).length < 2 ^ 32) (lm : LineManager) :
    run step (lm.write line (ptr.push (typedField ptr.mFields.length col p))) (typing (col + UInt32.ofNat p.length) line s) =
      lm.write line (ptr.push (typedField ptr.mFields.length col (p ++ s))) := by
  induction s generalizing p with
  | nil => rw [typing, run_nil, List.append_nil]
  | cons c s ih =>
    rw [List.append_cons] at hascii hfit ⊢
    have hbytes : (p ++ [c] ++ s).length = p.length + (s.length + 1) := by simp
    have hnext : col + UInt32.ofNat p.length + 1 = col + UInt32.ofNat (p ++ [c]).length := by
      rw [List.length_append, List.length_singleton, UInt32.ofNat_add, UInt32.add_assoc]
      rfl
    rw [typing, run_cons, step_typed hends (fun b hb => hascii b (List.mem_append_left _ hb)) (by omega), hnext]
    exact ih hascii hfit

end LineManager

/-! ### What the operations see -/

namespace Field

/-- The field with every type but `title` taken for one. -/
def plain (f : Field) : Field := { f with mType := if f.mType = .title then .title else .text }

theorem plain_eq_title {f : Field} : f.plain.mType = .title ↔ f.mType = .title := by
  unfold plain
  split_ifs with h
  · exact iff_of_true rfl h
  · exact iff_of_false nofun h

@[simp] theorem atRange_plain (f : Field) (col : UInt32) : f.plain.atRange col = f.atRange col := rfl

theorem plain_shiftRight (f : Field) : f.shiftRight.plain = f.plain.shiftRight := rfl

theorem plain_shiftLeft (f : Field) : f.shiftLeft.plain = f.plain.shiftLeft := rfl

theorem plain_withChar (f : Field) (c : UInt8) (pos : UInt32) : (f.withChar c pos).plain = f.plain.withChar c pos := rfl

theorem plain_withoutChar (f : Field) (pos : UInt32) : (f.withoutChar pos).plain = f.plain.withoutChar pos := rfl

end Field

def Line.plain (l : Line) : Line := l.setFields (l.mFields.map Field.plain)

/-- An edit of the plain fields. -/
theorem Line.plain_edit {shift : Field → Field} (hshift : ∀ o, (shift o).plain = shift o.plain) (l : Line) (n i : Nat)
    (f : Field) : (l.setFields (shiftFrom n shift (l.mFields.set i f))).plain =
      l.plain.setFields (shiftFrom n shift (l.plain.mFields.set i f.plain)) := by
  have hmap : (shiftFrom n shift (l.mFields.set i f)).map Field.plain =
      shiftFrom n shift ((l.mFields.map Field.plain).set i f.plain) := by
    rw [← List.map_set]
    apply List.ext_getElem?
    intro j
    rw [List.getElem?_map, getElem?_shiftFrom, getElem?_shiftFrom, List.getElem?_map, Option.map_map, Option.map_map]
    congr 1
    funext o
    simp only [Function.comp_apply]
    split_ifs
    · exact hshift o
    · rfl
  exact congrArg l.setFields hmap

namespace LineManager

/-- The same lines with the same fields, up to types that are not `title`. -/
def Alike (lm lm' : LineManager) : Prop := ∀ line, (lm.get? line).map Line.plain = (lm'.get? line).map Line.plain

namespace Alike

variable {lm lm' : LineManager} {line col : UInt32} {i : Nat} {f : Field}

theorem symm (h : Alike lm lm') : Alike lm' lm := fun line => (h line).symm

theorem lineFor (h : Alike lm lm') (line : UInt32) : (lm.lineFor line).plain = (lm'.lineFor line).plain := by
  have hline := h line
  unfold LineManager.lineFor
  cases hget : lm.get? line with
  | none =>
    rw [hget, Option.map_none, eq_comm, Option.map_eq_none_iff] at hline
    rw [hline]
  | some ptr =>
    rw [hget, Option.map_some, eq_comm, Option.map_eq_some_iff] at hline
    obtain ⟨ptr', hget', hplain⟩ := hline
    rw [hget']
    exact hplain.symm

theorem fields (h : Alike lm lm') (line : UInt32) :
    (lm.fields line).map Field.plain = (lm'.fields line).map Field.plain := by
  rw [← mFields_lineFor, ← mFields_lineFor]
  exact congrArg Line.mFields (h.lineFor line)

theorem length (h : Alike lm lm') (line : UInt32) : (lm.fields line).length = (lm'.fields line).length := by
  simpa using congrArg List.length (h.fields line)

/-- A column finds fields at the same place. -/
theorem firstAt (h : Alike lm lm') (hfirst : FirstAt (lm.fields line) col i f) :
    ∃ f', FirstAt (lm'.fields line) col i f' ∧ f.plain = f'.plain := by
  have hget : ∀ j : Nat, ((lm.fields line)[j]?).map Field.plain = ((lm'.fields line)[j]?).map Field.plain := by
    intro j
    rw [← List.getElem?_map, ← List.getElem?_map, h.fields line]
  have hi := hget i
  rw [hfirst.get, Option.map_some, eq_comm, Option.map_eq_some_iff] at hi
  obtain ⟨f', hf', hplain⟩ := hi
  refine ⟨f', ⟨hf', ?_, fun j g' hj hg' => ?_⟩, hplain.symm⟩
  · rw [← f'.atRange_plain, hplain]
    exact hfirst.inRange
  · have hg := hget j
    rw [hg', Option.map_some, Option.map_eq_some_iff] at hg
    obtain ⟨g, hg, hplaing⟩ := hg
    rw [← g'.atRange_plain, ← hplaing]
    exact hfirst.first j g hj hg

theorem outside (h : Alike lm lm') (hnone : ∀ g ∈ lm.fields line, g.atRange col = false) :
    ∀ g ∈ lm'.fields line, g.atRange col = false := by
  by_contra hsome
  obtain ⟨i, f', hfirst'⟩ := exists_firstAt hsome
  obtain ⟨f, hfirst, -⟩ := h.symm.firstAt hfirst'
  exact hfirst.not_outside hnone

theorem write (h : Alike lm lm') {ptr ptr' : Line} (hptr : ptr.plain = ptr'.plain) (line : UInt32) :
    Alike (lm.write line ptr) (lm'.write line ptr') := by
  intro line'
  rw [get?_write, get?_write]
  split_ifs
  · exact congrArg some hptr
  · exact h line'

/-- A field is made in both. -/
theorem push (h : Alike lm lm') {f f' : Field} (hf : f.plain = f'.plain) (line : UInt32) :
    Alike (lm.write line ((lm.lineFor line).push f)) (lm'.write line ((lm'.lineFor line).push f')) := by
  have hline := h.lineFor line
  have hnumber : (lm.lineFor line).mNumber = (lm'.lineFor line).mNumber := congrArg (·.mNumber) hline
  have hfields : (lm.lineFor line).mFields.map Field.plain = (lm'.lineFor line).mFields.map Field.plain :=
    congrArg (·.mFields) hline
  refine h.write ?_ line
  simp only [Line.plain, Line.push, Line.setFields, hnumber, List.map_append, hfields, List.map_cons, List.map_nil, hf]

/-- A field that both find is edited in both. -/
theorem edit (h : Alike lm lm') (line : UInt32) {shift : Field → Field} (hshift : ∀ o, (shift o).plain = shift o.plain)
    {n n' : Nat} (hn : n = n') (i : Nat) {f f' : Field} (hf : f.plain = f'.plain) :
    Alike (lm.write line ((lm.lineFor line).setFields (Line.shiftFrom n shift ((lm.fields line).set i f))))
      (lm'.write line ((lm'.lineFor line).setFields (Line.shiftFrom n' shift ((lm'.fields line).set i f')))) := by
  refine h.write ?_ line
  rw [← mFields_lineFor, ← mFields_lineFor, Line.plain_edit hshift, Line.plain_edit hshift, h.lineFor line, hf, hn]

/-! ### One call -/

theorem eventFilter (h : Alike lm lm') (col line : UInt32) (c : UInt8) :
    ∃ b s s', lm.eventFilter col line c = .ok (b, s) ∧ lm'.eventFilter col line c = .ok (b, s') ∧ Alike s s' := by
  by_cases hnone : ∀ g ∈ lm.fields line, g.atRange col = false
  · refine ⟨true, _, _, eventFilter_of_outside hnone, eventFilter_of_outside (h.outside hnone), h.push ?_ line⟩
    rw [h.length]
  · obtain ⟨i, f, hfirst⟩ := exists_firstAt hnone
    obtain ⟨f', hfirst', hplain⟩ := h.firstAt hfirst
    have htitle : f'.mType = .title ↔ f.mType = .title := by rw [← f'.plain_eq_title, ← hplain, Field.plain_eq_title]
    have hoffset : (col - f'.mStart).toNat = (col - f.mStart).toNat := congrArg (fun g => (col - g.mStart).toNat) hplain.symm
    have hlength : f'.mInfo.length = f.mInfo.length := congrArg (·.mInfo.length) hplain.symm
    by_cases ht : f.mType = .title
    · exact ⟨false, _, _, eventFilter_of_title hfirst ht, eventFilter_of_title hfirst' (htitle.mpr ht), h⟩
    · have ht' : f'.mType ≠ .title := fun h' => ht (htitle.mp h')
      by_cases hle : (col - f.mStart).toNat ≤ f.mInfo.length
      · have hle' : (col - f'.mStart).toNat ≤ f'.mInfo.length := by rwa [hoffset, hlength]
        refine ⟨true, _, _, eventFilter_of_le hfirst ht hle, eventFilter_of_le hfirst' ht' hle', ?_⟩
        have hposition : f.mPosition + 1 = f'.mPosition + 1 := congrArg (·.mPosition + 1) hplain
        have hedited : (f.withChar c col).plain = (f'.withChar c col).plain := by
          rw [Field.plain_withChar, Field.plain_withChar, hplain]
        exact h.edit line Field.plain_shiftRight hposition i hedited
      · have hlt' : f'.mInfo.length < (col - f'.mStart).toNat := by
          rw [hoffset, hlength]
          exact not_le.mp hle
        exact ⟨true, _, _, eventFilter_of_lt hfirst ht (not_le.mp hle), eventFilter_of_lt hfirst' ht' hlt', h⟩

theorem addField (h : Alike lm lm') (type : FieldType) (str : Bytes) (col line : UInt32) :
    ∃ s s', LineManager.addField type lm str col line = .ok s ∧ LineManager.addField type lm' str col line = .ok s' ∧
      Alike s s' := by
  by_cases hnone : ∀ g ∈ lm.fields line, g.atRange col = false
  · refine ⟨_, _, addField_of_outside hnone, addField_of_outside (h.outside hnone), h.push ?_ line⟩
    rw [h.length]
  · obtain ⟨i, f, hfirst⟩ := exists_firstAt hnone
    obtain ⟨f', hfirst', -⟩ := h.firstAt hfirst
    exact ⟨_, _, addField_of_firstAt hfirst, addField_of_firstAt hfirst', h⟩

theorem removeCharacter (h : Alike lm lm') (col line : UInt32) :
    ∃ s s', lm.removeCharacter col line = .ok s ∧ lm'.removeCharacter col line = .ok s' ∧ Alike s s' := by
  by_cases hnone : ∀ g ∈ lm.fields line, g.atRange col = false
  · exact ⟨_, _, removeCharacter_of_outside hnone, removeCharacter_of_outside (h.outside hnone), h⟩
  · obtain ⟨i, f, hfirst⟩ := exists_firstAt hnone
    obtain ⟨f', hfirst', hplain⟩ := h.firstAt hfirst
    have hoffset : (col - 1 - f'.mStart).toNat = (col - 1 - f.mStart).toNat :=
      congrArg (fun g => (col - 1 - g.mStart).toNat) hplain.symm
    have hlength : f'.mInfo.length = f.mInfo.length := congrArg (·.mInfo.length) hplain.symm
    by_cases hle : (col - 1 - f.mStart).toNat ≤ f.mInfo.length
    · have hle' : (col - 1 - f'.mStart).toNat ≤ f'.mInfo.length := by rwa [hoffset, hlength]
      refine ⟨_, _, removeCharacter_of_le hfirst hle, removeCharacter_of_le hfirst' hle', ?_⟩
      have hposition : f.mPosition + 1 = f'.mPosition + 1 := congrArg (·.mPosition + 1) hplain
      have hedited : (f.withoutChar (col - 1)).plain = (f'.withoutChar (col - 1)).plain := by
        rw [Field.plain_withoutChar, Field.plain_withoutChar, hplain]
      exact h.edit line Field.plain_shiftLeft hposition i hedited
    · have hlt' : f'.mInfo.length < (col - 1 - f'.mStart).toNat := by
        rw [hoffset, hlength]
        exact not_le.mp hle
      exact ⟨_, _, removeCharacter_of_lt hfirst (not_le.mp hle), removeCharacter_of_lt hfirst' hlt', h⟩

theorem isEditable (h : Alike lm lm') (col line : UInt32) : lm.isEditable col line = lm'.isEditable col line := by
  rw [Bool.eq_iff_iff, ← not_iff_not, Bool.not_eq_true, Bool.not_eq_true, isEditable_eq_false, isEditable_eq_false]
  have htransfer : ∀ {s s' : LineManager}, Alike s s' →
      (∃ i f, FirstAt (s.fields line) col i f ∧ f.mType = .title) →
        ∃ i f, FirstAt (s'.fields line) col i f ∧ f.mType = .title := by
    rintro s s' halike ⟨i, f, hfirst, htitle⟩
    obtain ⟨f', hfirst', hplain⟩ := halike.firstAt hfirst
    exact ⟨i, f', hfirst', by rw [← Field.plain_eq_title, ← hplain, Field.plain_eq_title, htitle]⟩
  exact ⟨htransfer h, htransfer h.symm⟩

end Alike

/-! ### Later calls -/

inductive Call
  | op (o : Op)
  | isEditable (col line : UInt32)

/-- What a call answers; all but `eventFilter` and `isEditable` answer nothing. -/
def reply (lm : LineManager) : Call → Option Bool
  | .op (.eventFilter col line c) => (lm.eventFilter col line c).toOption.map Prod.fst
  | .op _ => none
  | .isEditable col line => some (lm.isEditable col line)

/-- The state after a call. -/
def next (lm : LineManager) : Call → LineManager
  | .op o => lm.step o
  | .isEditable _ _ => lm

/-- Structures that are alike answer a call in the same way, and are alike after it. -/
theorem Alike.call {lm lm' : LineManager} (h : Alike lm lm') (call : Call) :
    lm.reply call = lm'.reply call ∧ Alike (lm.next call) (lm'.next call) := by
  rcases call with (⟨col, line, c⟩ | ⟨str, col, line⟩ | ⟨str, col, line⟩ | ⟨col, line⟩) | ⟨col, line⟩
  · obtain ⟨b, s, s', hcall, hcall', hnext⟩ := h.eventFilter col line c
    have hstep : lm.step (.eventFilter col line c) = s := step_of_eventFilter hcall
    have hstep' : lm'.step (.eventFilter col line c) = s' := step_of_eventFilter hcall'
    rw [reply, reply, next, next, hcall, hcall', hstep, hstep']
    exact ⟨rfl, hnext⟩
  · obtain ⟨s, s', hcall, hcall', hnext⟩ := h.addField .title str col line
    have hstep : lm.step (.addTitle str col line) = s := step_of_apply hcall
    have hstep' : lm'.step (.addTitle str col line) = s' := step_of_apply hcall'
    rw [next, next, hstep, hstep']
    exact ⟨rfl, hnext⟩
  · obtain ⟨s, s', hcall, hcall', hnext⟩ := h.addField .name str col line
    have hstep : lm.step (.addName str col line) = s := step_of_apply hcall
    have hstep' : lm'.step (.addName str col line) = s' := step_of_apply hcall'
    rw [next, next, hstep, hstep']
    exact ⟨rfl, hnext⟩
  · obtain ⟨s, s', hcall, hcall', hnext⟩ := h.removeCharacter col line
    have hstep : lm.step (.removeCharacter col line) = s := step_of_apply hcall
    have hstep' : lm'.step (.removeCharacter col line) = s' := step_of_apply hcall'
    rw [next, next, hstep, hstep']
    exact ⟨rfl, hnext⟩
  · exact ⟨congrArg some (h.isEditable col line), h⟩

/-- The bounds and the texts of a line. -/
def shown (lm : LineManager) (line : UInt32) : List (UInt32 × UInt32 × Bytes) :=
  (lm.fields line).map fun f => (f.mStart, f.mEnd, f.mInfo)

theorem Alike.shown {lm lm' : LineManager} (h : Alike lm lm') (line : UInt32) : lm.shown line = lm'.shown line := by
  have hplain := congrArg (List.map fun f : Field => (f.mStart, f.mEnd, f.mInfo)) (h.fields line)
  rwa [List.map_map, List.map_map] at hplain

/-- A 7-bit string that is typed right of the fields of a line leaves one field more, the one that `addName`
makes but for its type, and no later calls tell the difference. -/
theorem typing_agrees {lm : LineManager} {col line : UInt32} {s : Bytes} (hends : ∀ f ∈ lm.fields line, f.mEnd < col)
    (hne : s ≠ []) (hascii : ∀ b ∈ s, b ≠ 0 ∧ b < 128) (hfit : col.toNat + s.length < 2 ^ 32) :
    let typed := run step lm (typing col line s)
    let added := lm.step (.addName s col line)
    let made := fun type => (lm.lineFor line).push (.newString type (lm.fields line).length col s)
    (typed = lm.write line (made .text) ∧ added = lm.write line (made .name)) ∧
      ∀ calls, outputs next reply typed calls = outputs next reply added calls ∧
        ∀ line', (run next typed calls).shown line' = (run next added calls).shown line' := by
  intro typed added made
  have hnone : ∀ g ∈ lm.fields line, g.atRange col = false := by
    intro g hg
    rw [Field.atRange_eq_false]
    exact fun hin => absurd (UInt32.lt_of_lt_of_le (hends g hg) hin.2) (UInt32.lt_irrefl _)
  have hadded : added = lm.write line (made .name) := by
    have hcall : lm.apply (.addName s col line) = _ := addField_of_outside hnone
    rw [cString_eq_self fun h0 => (hascii 0 h0).1 rfl] at hcall
    exact step_of_apply hcall
  have htyped : typed = lm.write line (made .text) := by
    obtain ⟨c, s, rfl⟩ := List.exists_cons_of_ne_nil hne
    obtain ⟨⟨-, hc⟩, -⟩ := List.forall_mem_cons.mp hascii
    have hfirst : lm.step (.eventFilter col line c) =
        lm.write line ((lm.lineFor line).push (typedField (lm.fields line).length col [c])) := by
      rw [step_of_eventFilter (eventFilter_of_outside hnone), typedField, Field.newString,
        utf8StringSize_of_ascii (List.forall_mem_singleton.mpr hc)]
      rfl
    have hall : ∀ b ∈ [c] ++ s, b < 128 := fun b hb => (hascii b hb).2
    have hrun : run step (lm.write line ((lm.lineFor line).push (typedField (lm.lineFor line).mFields.length col [c])))
        (typing (col + 1) line s) = _ := run_typing (by rw [mFields_lineFor]; exact hends) hall hfit lm
    rw [mFields_lineFor] at hrun
    show run step (lm.step (.eventFilter col line c)) (typing (col + 1) line s) = _
    rw [hfirst]
    exact hrun
  refine ⟨⟨htyped, hadded⟩, fun calls => ?_⟩
  have halike : Alike typed added := by
    have hplain : (Field.newString .text (lm.fields line).length col s).plain =
        (Field.newString .name (lm.fields line).length col s).plain := rfl
    have hself : Alike lm lm := fun _ => rfl
    rw [htyped, hadded]
    exact hself.push hplain line
  obtain ⟨houtputs, hlast⟩ := outputs_eq_of_related Alike (fun _ _ call h => h.call call) calls halike
  exact ⟨houtputs, hlast.shown⟩

/-- Typed behind a title. -/
theorem typing_agrees_title :
    let lm := empty.step (.addTitle [66, 97] 0 7)
    let typed := run step lm (typing 4 7 [120, 121])
    let added := lm.step (.addName [120, 121] 4 7)
    let made := fun type => (lm.lineFor 7).push (.newString type (lm.fields 7).length 4 [120, 121])
    (typed = lm.write 7 (made .text) ∧ added = lm.write 7 (made .name)) ∧
      ∀ calls, outputs next reply typed calls = outputs next reply added calls ∧
        ∀ line', (run next typed calls).shown line' = (run next added calls).shown line' :=
  typing_agrees (by decide +kernel) (by decide) (by decide +kernel) (by decide +kernel)

end LineManager

end MetaEditor
