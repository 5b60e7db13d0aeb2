import MetaEditor.Editor.Script

/-!
# When the structure is the document

In an editor whose own filter sees its keys, and in a session that keeps to whole lines, the structure is the
document: every line has one field that is the line, or is empty. Such a session types one character at a time,
erases inside lines, breaks a line only behind the last one, and puts a title or a name in a line of its own. The
cursor goes anywhere, and what is selected does not matter to the keys that refuse to erase it; but in a line that is
wrapped nothing is typed or erased behind the first visual line.
-/

namespace MetaEditor

open Lib Document

/-- A field that is its whole line. -/
def wholeField (type : FieldType) (info : Bytes) : Field :=
  { mPosition := 0, mType := type, mStart := 0, mEnd := UInt32.ofNat info.length, mInfo := info }

/-- A line of the structure beside one of the document: a field that is the whole line, or nothing beside
nothing. -/
inductive MirrorsLine : List Field → Option (List QChar) → Prop
  | nothing {row? : Option (List QChar)} (h : row?.getD [] = []) : MirrorsLine [] row?
  | whole (type : FieldType) (info : Bytes) : MirrorsLine [wholeField type info] (some (info.map UInt8.toUInt16))

/-! ### One line of the structure -/

namespace MirrorsLine

theorem atRange_whole {type : FieldType} {info : Bytes} {col : Nat} (hsize : info.length < 2 ^ 31)
    (hcol : col < 2 ^ 32) : (wholeField type info).atRange (UInt32.ofNat col) = true ↔ col ≤ info.length := by
  have hstart : (wholeField type info).mStart.toNat = 0 := rfl
  have hstop : (wholeField type info).mEnd.toNat = info.length := by
    rw [wholeField, UInt32.toNat_ofNat']
    omega
  rw [Field.atRange_eq_true, UInt32.le_iff_toNat_le, UInt32.le_iff_toNat_le, UInt32.toNat_ofNat', hstart, hstop]
  omega

theorem firstAt_whole {type : FieldType} {info : Bytes} {col : Nat} (hsize : info.length < 2 ^ 31)
    (hcol : col ≤ info.length) : FirstAt [wholeField type info] (UInt32.ofNat col) 0 (wholeField type info) := by
  refine firstAt_of_unique rfl ((atRange_whole hsize (by omega)).mpr hcol) fun j g hg _ => ?_
  cases j with
  | zero => rfl
  | succ j => cases hg

/-- The offset of a column in a whole line is the column. -/
theorem offset_whole (type : FieldType) (info : Bytes) (col : Nat) (hcol : col < 2 ^ 32) :
    (UInt32.ofNat col - (wholeField type info).mStart).toNat = col := by
  rw [show UInt32.ofNat col - (wholeField type info).mStart = UInt32.ofNat col from UInt32.sub_zero _,
    UInt32.toNat_ofNat', Nat.mod_eq_of_lt hcol]

variable {lm : LineManager} {line : UInt32} {row : List QChar} {col : Nat}

/-- A character is refused, or goes in at its column. -/
theorem typed (h : MirrorsLine (lm.fields line) (some row)) (hsize : row.length + 1 < 2 ^ 31) (hcol : col ≤ row.length)
    (c : UInt8) :
    lm.eventFilter (UInt32.ofNat col) line c = .ok (false, lm) ∨
      ∃ ptr : Line, lm.eventFilter (UInt32.ofNat col) line c = .ok (true, lm.write line ptr) ∧
        MirrorsLine ptr.mFields (some (row.take col ++ [c.toUInt16] ++ row.drop col)) := by
  generalize hfields : lm.fields line = fields at h
  cases h with
  | nothing hrow =>
    obtain rfl : row = [] := hrow
    obtain rfl : col = 0 := Nat.le_zero.mp hcol
    refine .inr ⟨_, LineManager.eventFilter_of_outside (by rw [hfields]; exact fun _ hg => absurd hg List.not_mem_nil), ?_⟩
    rw [Line.push, Line.setFields_mFields, LineManager.mFields_lineFor, hfields]
    exact .whole .text [c]
  | whole type info =>
    rw [List.length_map] at hsize hcol
    have hfirst : FirstAt (lm.fields line) (UInt32.ofNat col) 0 (wholeField type info) :=
      hfields.symm ▸ firstAt_whole (by omega) hcol
    have hoffset := offset_whole type info col (by omega)
    by_cases htitle : type = .title
    · exact .inl (LineManager.eventFilter_of_title hfirst htitle)
    · refine .inr ⟨_, LineManager.eventFilter_of_le hfirst htitle (by rw [hoffset]; exact hcol), ?_⟩
      have hfield : (wholeField type info).withChar c (UInt32.ofNat col) =
          wholeField type (info.take col ++ [c] ++ info.drop col) := by
        have hlength : (info.take col ++ [c] ++ info.drop col).length = info.length + 1 := by
          simp only [List.length_append, List.length_take, List.length_drop, List.length_singleton]
          omega
        simp only [Field.withChar, hoffset]
        simp only [wholeField, hlength, UInt32.ofNat_add, Field.mk.injEq, true_and, and_true]
        rfl
      have hwhole := MirrorsLine.whole type (info.take col ++ [c] ++ info.drop col)
      rw [List.map_append, List.map_append, List.map_take, List.map_drop, ← hfield] at hwhole
      rw [Line.setFields_mFields, hfields]
      exact hwhole

/-- Nothing is erased, or the character before the column. -/
theorem removed (h : MirrorsLine (lm.fields line) (some row)) (hsize : row.length < 2 ^ 31) (hcol : col < row.length) :
    lm.isEditable (UInt32.ofNat (col + 1)) line = false ∨
      lm.isEditable (UInt32.ofNat (col + 1)) line = true ∧
        ∃ ptr : Line, lm.removeCharacter (UInt32.ofNat (col + 1)) line = .ok (lm.write line ptr) ∧
          MirrorsLine ptr.mFields (some (row.take col ++ row.drop (col + 1))) := by
  cases hedit : lm.isEditable (UInt32.ofNat (col + 1)) line with
  | false => exact .inl rfl
  | true =>
    refine .inr ⟨rfl, ?_⟩
    generalize hfields : lm.fields line = fields at h
    cases h with
    | nothing hrow =>
      obtain rfl : row = [] := hrow
      exact absurd hcol (Nat.not_lt_zero _)
    | whole type info =>
      rw [List.length_map] at hsize hcol
      have hfirst : FirstAt (lm.fields line) (UInt32.ofNat (col + 1)) 0 (wholeField type info) :=
        hfields.symm ▸ firstAt_whole (by omega) hcol
      have hprevious : UInt32.ofNat (col + 1) - 1 = UInt32.ofNat col := by
        rw [UInt32.ofNat_add]
        exact UInt32.add_sub_cancel _ _
      have hoffset := offset_whole type info col (by omega)
      refine ⟨_, LineManager.removeCharacter_of_le hfirst (by rw [hprevious, hoffset]; exact hcol.le), ?_⟩
      have hfield : (wholeField type info).withoutChar (UInt32.ofNat (col + 1) - 1) =
          wholeField type (info.take col ++ info.drop (col + 1)) := by
        have hlength : (info.take col ++ info.drop (col + 1)).length + 1 = info.length := by
          simp only [List.length_append, List.length_take, List.length_drop]
          omega
        have hend : UInt32.ofNat info.length - 1 = UInt32.ofNat (info.take col ++ info.drop (col + 1)).length := by
          rw [← hlength, UInt32.ofNat_add]
          exact UInt32.add_sub_cancel _ _
        rw [hprevious]
        simp only [Field.withoutChar, hoffset]
        simp only [wholeField, hend]
      have hwhole := MirrorsLine.whole type (info.take col ++ info.drop (col + 1))
      rw [List.map_append, List.map_take, List.map_drop, ← hfield] at hwhole
      rw [Line.setFields_mFields, hfields]
      exact hwhole

/-- Outside the text nothing is erased: before the first column and behind the last one. -/
theorem not_removed (h : MirrorsLine (lm.fields line) (some row)) (hsize : row.length < 2 ^ 31)
    (hcol : col = 0 ∨ col = row.length + 1) : lm.removeCharacter (UInt32.ofNat col) line = .ok lm := by
  generalize hfields : lm.fields line = fields at h
  cases h with
  | nothing hrow =>
    exact LineManager.removeCharacter_of_outside (by rw [hfields]; exact fun _ hg => absurd hg List.not_mem_nil)
  | whole type info =>
    rw [List.length_map] at hsize hcol
    rcases hcol with rfl | rfl
    · have hfirst : FirstAt (lm.fields line) (UInt32.ofNat 0) 0 (wholeField type info) :=
        hfields.symm ▸ firstAt_whole hsize (Nat.zero_le _)
      refine LineManager.removeCharacter_of_lt hfirst ?_
      have hoffset : (UInt32.ofNat 0 - 1 - (wholeField type info).mStart).toNat = 2 ^ 32 - 1 := Field.offset_first rfl
      rw [hoffset]
      exact hsize.trans (by decide)
    · refine LineManager.removeCharacter_of_outside ?_
      rw [hfields, List.forall_mem_singleton, ← Bool.not_eq_true, atRange_whole hsize (by omega)]
      omega

end MirrorsLine

/-! ### All lines -/

/-- Line by line the structure mirrors the document. -/
def Mirrors (d : Document) (lm : LineManager) : Prop :=
  ∀ line : UInt32, MirrorsLine (lm.fields line) (d[line.toNat]?)

namespace Mirrors

variable {d : Document} {lm : LineManager}

theorem line (h : Mirrors d lm) {n : Nat} (hn : n < 2 ^ 32) {row : List QChar} (hrow : d[n]? = some row) :
    MirrorsLine (lm.fields (UInt32.ofNat n)) (some row) := by
  have hline := h (UInt32.ofNat n)
  rwa [UInt32.toNat_ofNat', Nat.mod_eq_of_lt hn, hrow] at hline

/-- One line is edited on both sides. -/
theorem write (h : Mirrors d lm) {n : Nat} (hn : n < 2 ^ 32) (hlt : n < d.length) {row : List QChar} {ptr : Line}
    (hrow : MirrorsLine ptr.mFields (some row)) : Mirrors (d.set n row) (lm.write (UInt32.ofNat n) ptr) := by
  intro line
  by_cases hline : line = UInt32.ofNat n
  · have hnat : line.toNat = n := (Sheet.eq_ofNat_iff hn line).mp hline
    rw [hline, LineManager.fields_write_self, ← hline, hnat, List.getElem?_set_self hlt]
    exact hrow
  · have hnat : line.toNat ≠ n := fun heq => hline ((Sheet.eq_ofNat_iff hn line).mpr heq)
    rw [LineManager.fields_write_of_ne (Ne.symm hline), List.getElem?_set_ne hnat.symm]
    exact h line

/-- An empty line goes behind the last one. -/
theorem concat (h : Mirrors d lm) : Mirrors (d ++ [[]]) lm := by
  intro line
  by_cases hlt : line.toNat < d.length
  · rw [List.getElem?_append_left hlt]
    exact h line
  · have hline := h line
    rw [List.getElem?_eq_none (not_lt.mp hlt)] at hline
    generalize lm.fields line = fields at hline
    cases hline with
    | nothing _ =>
      refine .nothing ?_
      rw [List.getElem?_append_right (not_lt.mp hlt)]
      cases line.toNat - d.length <;> rfl

end Mirrors

namespace Sheet

/-- An edit inside a line. -/
theorem document_edit_inside (s : Sheet) (text : List QChar) {n a b : Nat} {block : List QChar}
    (hblock : s.document[n]? = some block) (ha : a ≤ block.length) (hb : b ≤ block.length) (htext : separator ∉ text) :
    (s.edit { start := s.document.offset n + a, stop := s.document.offset n + b, text }).document =
      s.document.set n (block.take a ++ text ++ block.drop b) := by
  have hclean := s.clean_document
  refine document_edit ?_ ?_ fun block' hblock' => ?_
  · have hsplice := plain_set_splice hblock ha hb text
    rw [plain_document] at hsplice
    exact hsplice
  · rw [Ne, List.set_eq_nil_iff]
    exact ofText_ne_nil _
  · rcases List.mem_or_eq_of_mem_set hblock' with hmem | rfl
    · exact hclean _ hmem
    · have hin := hclean _ (List.mem_of_getElem? hblock)
      simp only [List.mem_append, not_or]
      exact ⟨⟨fun hmem => hin (List.mem_of_mem_take hmem), htext⟩, fun hmem => hin (List.mem_of_mem_drop hmem)⟩

/-- With nothing selected the cursor is at one place. -/
theorem start_of_eq {s : Sheet} (h : s.anchor = s.position) :
    s.cursor.selectionStart = s.document.offset s.cursor.position.blockNumber + s.cursor.position.column ∧
      s.cursor.selectionEnd = s.document.offset s.cursor.position.blockNumber + s.cursor.position.column := by
  have hposition : s.document.offset s.cursor.position.blockNumber + s.cursor.position.column = s.position :=
    s.position_position_cursor
  rw [selectionStart_cursor, selectionEnd_cursor, hposition, start, stop, h, min_self, max_self]
  exact ⟨rfl, rfl⟩

/-- Behind the last line the cursor is at the end of the text. -/
theorem atEnd_of_position {s : Sheet} (hanchor : s.anchor = s.position) (hposition : s.position = s.text.length) :
    AtEnd s s.document.dropLast (s.document.getLast (ofText_ne_nil _)) :=
  ⟨(List.dropLast_append_getLast _).symm, hanchor.trans hposition, hposition⟩

/-! ### Sessions -/

/-- An input from outside, or a call from a script. -/
inductive Action
  | input (input : Input)
  | call (call : Call)

/-- The editor after it; a program that has ended changes nothing. -/
def act (b : Build) (fromUtf8 : FromUtf8) (s : Sheet) : Action → Sheet
  | .input input => s.step b input
  | .call c => (s.call fromUtf8 c).getD s

/-- What the widget types, as far as Latin-1 goes: a tab, or a character that is printed. -/
def Printable (c : QChar) : Prop :=
  c = 0x09 ∨ (0x20 ≤ c ∧ c < 0x7F) ∨ (0xA0 ≤ c ∧ c ≤ 0xFF ∧ c ≠ 0xAD)

instance (c : QChar) : Decidable (Printable c) := inferInstanceAs (Decidable (_ ∨ _))

/-- A key that keeps to whole lines. -/
def KeepsLines (s : Sheet) (keyEvent : KeyEvent) : Prop :=
  match keyEvent.key with
  | .capsLock | .left | .down | .right | .up => True
  | .enter | .return => s.anchor = s.position ∧ s.position = s.text.length
  | .backspace => s.anchor = s.position → s.FirstRow ∧ (s.cursor.position.column ≠ 0 ∨ s.position = 0)
  | .delete => s.anchor = s.position →
      s.FirstRow ∧ (s.cursor.position.column < s.cursor.position.block.length ∨ s.position = s.text.length)
  | .other _ => s.anchor = s.position ∧ s.FirstRow ∧ keyEvent.text.length = 1 ∧ ∀ c ∈ keyEvent.text, Printable c
  | .escape | .f1 | .f2 | .f3 => False

/-- A step that keeps to whole lines, in a text that stays smaller than an `int`. -/
def Tame (fromUtf8 : FromUtf8) (s : Sheet) : Action → Prop
  | .input (.select _ _) | .input (.resize _) | .input (.event .other _) | .call .lineCount => True
  | .input (.event (.keyPress keyEvent) _) =>
    s.visible = true ∧ keyEvent.controlModifier = false ∧ s.text.length + 1 < 2 ^ 31 ∧ s.KeepsLines keyEvent
  | .call (.title str) | .call (.name str) =>
    s.anchor = s.position ∧ s.cursor.position.block = [] ∧
      s.dataman.fields (UInt32.ofNat s.cursor.position.blockNumber) = [] ∧
      (∀ c ∈ str, 0x20 ≤ c ∧ c < 0x7F) ∧ fromUtf8 str = str.map UInt8.toUInt16 ∧ s.text.length + str.length < 2 ^ 31
  | .call .jumpLine => s.anchor = s.position ∧ s.position = s.text.length ∨
      s.cursor.position.blockNumber + 1 < s.document.length
  | .call (.write _) => False

section Steps

variable {b : Build} {fromUtf8 : FromUtf8} {s : Sheet} {keyEvent : KeyEvent} {clipboard : List QChar}

theorem step_keyPress {r : Filtered} (h : PlainEditor.eventFilter b s.view s.dataman (.keyPress keyEvent) = .ok r)
    (hinserted : r.inserted = "") : s.step b (.event (.keyPress keyEvent) clipboard) =
      if r.answer then { s with dataman := r.dataman }
      else ({ s with dataman := r.dataman } : Sheet).widget (.keyPress keyEvent) clipboard := by
  have hhandle : s.handle b (.event (.keyPress keyEvent) clipboard) = .ok (if r.answer then { s with dataman := r.dataman }
      else ({ s with dataman := r.dataman } : Sheet).widget (.keyPress keyEvent) clipboard) := by
    simp only [handle, h, hinserted, bind, Except.bind, pure, Except.pure, if_true]
    split_ifs <;> rfl
  rw [step, hhandle]

/-- What the widget makes of an event, on both sides. -/
theorem document_widget (s : Sheet) (lm : LineManager) {e : Splice QChar}
    (he : widgetEdit s.document s.cursor clipboard keyEvent = e) :
    ((({ s with dataman := lm } : Sheet).widget (.keyPress keyEvent) clipboard).document =
      if e = noEdit then s.document else (s.edit e).document) ∧
      (({ s with dataman := lm } : Sheet).widget (.keyPress keyEvent) clipboard).dataman = lm := by
  have hwidget : ({ s with dataman := lm } : Sheet).widget (.keyPress keyEvent) clipboard =
      if e = noEdit then ({ s with dataman := lm } : Sheet) else ({ s with dataman := lm } : Sheet).edit e := by
    rw [widget]
    exact congrArg (fun e => if e = noEdit then ({ s with dataman := lm } : Sheet) else ({ s with dataman := lm } : Sheet).edit e) he
  rw [hwidget]
  split_ifs <;> exact ⟨rfl, rfl⟩

theorem view_of_visible (h : s.visible = true) : s.view = s.cursor.viewIn s.layout := by
  rw [view, h]
  rfl

/-- What the filter passes on from the first visual line. -/
theorem column_view (h : s.visible = true) (hrow : s.FirstRow) :
    PlainEditor.column s.view = UInt32.ofNat s.cursor.position.column := by
  rw [view_of_visible h, Cursor.viewIn_of_firstRow hrow, Cursor.column_view]

theorem nextColumn_view (h : s.visible = true) (hrow : s.FirstRow) :
    PlainEditor.nextColumn s.view = UInt32.ofNat (s.cursor.position.column + 1) := by
  rw [view_of_visible h, Cursor.viewIn_of_firstRow hrow, Cursor.nextColumn_view]

theorem currentLine_view (s : Sheet) : PlainEditor.currentLine s.view = UInt32.ofNat s.cursor.position.blockNumber :=
  Cursor.currentLine_viewIn s.layout s.cursor

theorem selection_view (s : Sheet) : s.view.selectionStart = s.view.selectionEnd ↔ s.anchor = s.position := by
  simp only [view, Cursor.viewIn, selectionStart_cursor, selectionEnd_cursor, start, stop]
  omega

/-- A line and its number fit the text. -/
theorem cursor_sizes (s : Sheet) : s.cursor.position.blockNumber ≤ s.text.length ∧
    s.document.offset s.cursor.position.blockNumber + s.cursor.position.block.length ≤ s.text.length := by
  have hblock := s.cursor.position.blockNumber_le
  have hend := offset_add_length_le s.cursor.position.hblock
  rw [plain_document] at hblock hend
  exact ⟨hblock, hend⟩

/-- A key that is taken away. -/
theorem mirrors_stop (h : Mirrors s.document s.dataman)
    (hfilter : PlainEditor.eventFilter b s.view s.dataman (.keyPress keyEvent) = .ok (PlainEditor.stop s.dataman)) :
    Mirrors (s.step b (.event (.keyPress keyEvent) clipboard)).document
      (s.step b (.event (.keyPress keyEvent) clipboard)).dataman := by
  rw [step_keyPress hfilter rfl]
  exact h

/-- The structure and the document after a key that is let through. -/
theorem mirrors_letThrough {lm : LineManager} {e : Splice QChar}
    (hfilter : PlainEditor.eventFilter b s.view s.dataman (.keyPress keyEvent) = .ok (PlainEditor.letThrough lm))
    (he : widgetEdit s.document s.cursor clipboard keyEvent = e)
    (h : Mirrors (if e = noEdit then s.document else (s.edit e).document) lm) :
    Mirrors (s.step b (.event (.keyPress keyEvent) clipboard)).document
      (s.step b (.event (.keyPress keyEvent) clipboard)).dataman := by
  obtain ⟨hdocument, hdataman⟩ := document_widget s lm he
  have hstep : s.step b (.event (.keyPress keyEvent) clipboard) =
      ({ s with dataman := lm } : Sheet).widget (.keyPress keyEvent) clipboard := by
    rw [step_keyPress hfilter rfl]
    exact if_neg Bool.false_ne_true
  rw [hstep, hdocument, hdataman]
  exact h

/-- What the filter does with a character. -/
theorem eventFilter_typed (v : View) (lm : LineManager) (hctrl : keyEvent.controlModifier = false) {code : Nat}
    (hkey : keyEvent.key = .other code) {c : QChar} (htext : keyEvent.text = [c]) {answer : Bool} {lm' : LineManager}
    (hcall : lm.eventFilter (PlainEditor.column v) (PlainEditor.currentLine v) c.toLatin1 = .ok (answer, lm')) :
    PlainEditor.eventFilter b v lm (.keyPress keyEvent) =
      .ok (if answer = false then PlainEditor.stop lm' else PlainEditor.letThrough lm') := by
  have hat : PlainEditor.textAt0 b keyEvent = .ok c := by rw [PlainEditor.textAt0, htext]
  simp only [PlainEditor.eventFilter, PlainEditor.keyFilter, hctrl, hkey, Bool.false_eq_true, if_false,
    PlainEditor.characterKey, hat, hcall, bind, Except.bind, pure, Except.pure]

theorem Printable.le {c : QChar} (h : Printable c) : c ≤ 0xFF := by
  rcases h with rfl | ⟨-, hlt⟩ | ⟨-, hle, -⟩
  · decide
  · exact UInt16.le_of_lt (UInt16.lt_trans hlt (by decide))
  · exact hle

theorem ne_separator_of_le {c : QChar} (h : c ≤ 0xFF) : c ≠ separator := by
  rintro rfl
  exact absurd h (by decide)

/-- A typed character. -/
theorem mirrors_typed (h : Mirrors s.document s.dataman) (hvisible : s.visible = true)
    (hctrl : keyEvent.controlModifier = false) (hsize : s.text.length + 1 < 2 ^ 31) {code : Nat}
    (hkey : keyEvent.key = .other code) (hselection : s.anchor = s.position) (hfirst : s.FirstRow) {c : QChar}
    (htext : keyEvent.text = [c]) (hc : Printable c) : Mirrors (s.step b (.event (.keyPress keyEvent) clipboard)).document
      (s.step b (.event (.keyPress keyEvent) clipboard)).dataman := by
  obtain ⟨hn, hend⟩ := s.cursor_sizes
  obtain ⟨hstart, hstop⟩ := start_of_eq hselection
  have hblock := s.cursor.position.hblock
  have hcol := s.cursor.position.hcolumn
  have hline := h.line (by omega) hblock
  rcases hline.typed (by omega) hcol c.toLatin1 with hcall | ⟨ptr, hcall, hrow⟩ <;>
    rw [← column_view hvisible hfirst, ← currentLine_view] at hcall
  · exact mirrors_stop h (eventFilter_typed _ _ hctrl hkey htext hcall)
  · have he : widgetEdit s.document s.cursor clipboard keyEvent =
        { start := s.document.offset s.cursor.position.blockNumber + s.cursor.position.column
          stop := s.document.offset s.cursor.position.blockNumber + s.cursor.position.column, text := [c] } := by
      simp only [widgetEdit, hkey, hctrl, htext, hstart, hstop]
      rfl
    refine mirrors_letThrough (eventFilter_typed _ _ hctrl hkey htext hcall) he ?_
    · rw [if_neg fun heq => List.cons_ne_nil _ _ (congrArg Splice.text heq), document_edit_inside s _ hblock hcol hcol
        (List.mem_singleton.not.mpr (ne_separator_of_le hc.le).symm), currentLine_view]
      rw [(QChar.toUInt16_toLatin1 c).mpr hc.le] at hrow
      exact h.write (by omega) (List.getElem?_eq_some_iff.mp hblock).1 hrow

/-- Backspace and Delete: they erase a character of the line, or nothing at all. -/
theorem mirrors_eraseKey (passed : UInt32) (col low high : Nat) (h : Mirrors s.document s.dataman)
    (hsize : s.text.length + 1 < 2 ^ 31)
    (hfilter : PlainEditor.eventFilter b s.view s.dataman (.keyPress keyEvent) = PlainEditor.eraseKey s.view s.dataman passed)
    (herase : s.anchor = s.position → passed = UInt32.ofNat col ∧ widgetEdit s.document s.cursor clipboard keyEvent =
        { start := s.document.offset s.cursor.position.blockNumber + low
          stop := s.document.offset s.cursor.position.blockNumber + high, text := [] } ∧
      (low < s.cursor.position.block.length ∧ high = low + 1 ∧ col = low + 1 ∨
        low ≤ s.cursor.position.block.length ∧ high = low ∧ (col = 0 ∨ col = s.cursor.position.block.length + 1))) :
    Mirrors (s.step b (.event (.keyPress keyEvent) clipboard)).document
      (s.step b (.event (.keyPress keyEvent) clipboard)).dataman := by
  obtain ⟨hn, hend⟩ := s.cursor_sizes
  have hblock := s.cursor.position.hblock
  have hline := h.line (by omega) hblock
  have hnumber := currentLine_view s
  by_cases hselection : s.anchor = s.position
  · obtain ⟨rfl, he, hcases⟩ := herase hselection
    by_cases hedit : s.dataman.isEditable (UInt32.ofNat col) (UInt32.ofNat s.cursor.position.blockNumber) = false
    · refine mirrors_stop h (hfilter.trans ?_)
      rw [PlainEditor.eraseKey, if_pos (selection_view s |>.mpr hselection), hnumber, if_pos hedit]
      rfl
    · have hlet : ∀ lm', s.dataman.removeCharacter (UInt32.ofNat col) (UInt32.ofNat s.cursor.position.blockNumber) = .ok lm' →
          PlainEditor.eventFilter b s.view s.dataman (.keyPress keyEvent) = .ok (PlainEditor.letThrough lm') := by
        intro lm' hremove
        rw [hfilter, PlainEditor.eraseKey, if_pos (selection_view s |>.mpr hselection), hnumber, if_neg hedit, hremove]
        rfl
      rcases hcases with ⟨hlt, rfl, rfl⟩ | ⟨hle, rfl, hcol⟩
      · rcases hline.removed (by omega) hlt with hnot | ⟨-, ptr, hremove, hrow⟩
        · exact absurd hnot hedit
        · refine mirrors_letThrough (hlet _ hremove) he ?_
          rw [if_neg fun heq => by have := congrArg Splice.stop heq; simp [noEdit] at this,
            document_edit_inside s _ hblock hlt.le hlt List.not_mem_nil, List.append_nil]
          exact h.write (by omega) (List.getElem?_eq_some_iff.mp hblock).1 hrow
      · refine mirrors_letThrough (hlet _ (hline.not_removed (by omega) hcol)) he ?_
        split_ifs
        · exact h
        · rw [document_edit_inside s _ hblock hle hle List.not_mem_nil, List.append_nil, List.take_append_drop,
            set_self hblock]
          exact h
  · refine mirrors_stop h (hfilter.trans ?_)
    rw [PlainEditor.eraseKey, if_neg fun heq => hselection (selection_view s |>.mp heq)]
    rfl

/-- Backspace inside a line, or where there is nothing before the cursor. -/
theorem mirrors_backspace (h : Mirrors s.document s.dataman) (hvisible : s.visible = true)
    (hctrl : keyEvent.controlModifier = false) (hsize : s.text.length + 1 < 2 ^ 31) (hkey : keyEvent.key = .backspace)
    (hkeeps : s.anchor = s.position → s.FirstRow ∧ (s.cursor.position.column ≠ 0 ∨ s.position = 0)) :
    Mirrors (s.step b (.event (.keyPress keyEvent) clipboard)).document
      (s.step b (.event (.keyPress keyEvent) clipboard)).dataman := by
  have hposition : s.document.offset s.cursor.position.blockNumber + s.cursor.position.column = s.position :=
    s.position_position_cursor
  refine mirrors_eraseKey (PlainEditor.column s.view) s.cursor.position.column (s.cursor.position.column - 1)
    s.cursor.position.column h hsize ?_ fun hselection => ⟨column_view hvisible (hkeeps hselection).1, ?_, ?_⟩
  · simp only [PlainEditor.eventFilter, PlainEditor.keyFilter, hctrl, hkey, Bool.false_eq_true, if_false]
  · obtain ⟨hstart, hstop⟩ := start_of_eq hselection
    simp only [widgetEdit, hkey, hstart, hstop, if_true, Splice.mk.injEq, and_true]
    rcases (hkeeps hselection).2 with hne | hzero <;> omega
  · have hcolumn := s.cursor.position.hcolumn
    rcases (hkeeps hselection).2 with hne | hzero
    · exact .inl (by omega)
    · exact .inr (by omega)

/-- Delete inside a line, or where there is nothing behind the cursor. -/
theorem mirrors_delete (h : Mirrors s.document s.dataman) (hvisible : s.visible = true)
    (hctrl : keyEvent.controlModifier = false) (hsize : s.text.length + 1 < 2 ^ 31) (hkey : keyEvent.key = .delete)
    (hkeeps : s.anchor = s.position → s.FirstRow ∧
      (s.cursor.position.column < s.cursor.position.block.length ∨ s.position = s.text.length)) :
    Mirrors (s.step b (.event (.keyPress keyEvent) clipboard)).document
      (s.step b (.event (.keyPress keyEvent) clipboard)).dataman := by
  have hposition : s.document.offset s.cursor.position.blockNumber + s.cursor.position.column = s.position :=
    s.position_position_cursor
  have hcolumn := s.cursor.position.hcolumn
  obtain ⟨-, hend⟩ := s.cursor_sizes
  refine mirrors_eraseKey (PlainEditor.nextColumn s.view) (s.cursor.position.column + 1) s.cursor.position.column
    (min (s.cursor.position.column + 1) s.cursor.position.block.length) h hsize ?_
    fun hselection => ⟨nextColumn_view hvisible (hkeeps hselection).1, ?_, ?_⟩
  · simp only [PlainEditor.eventFilter, PlainEditor.keyFilter, hctrl, hkey, Bool.false_eq_true, if_false]
  · obtain ⟨hstart, hstop⟩ := start_of_eq hselection
    simp only [widgetEdit, hkey, hstart, hstop, if_true, Splice.mk.injEq, and_true, plain_document, true_and]
    rcases (hkeeps hselection).2 with hlt | hlast <;> omega
  · rcases (hkeeps hselection).2 with hlt | hlast
    · exact .inl (by omega)
    · exact .inr (by omega)

/-- Enter behind the last line. -/
theorem mirrors_enter (h : Mirrors s.document s.dataman) (hctrl : keyEvent.controlModifier = false)
    (hkey : keyEvent.key = .enter ∨ keyEvent.key = .return) (hselection : s.anchor = s.position)
    (hposition : s.position = s.text.length) :
    Mirrors (s.step b (.event (.keyPress keyEvent) clipboard)).document
      (s.step b (.event (.keyPress keyEvent) clipboard)).dataman := by
  have hfilter : PlainEditor.eventFilter b s.view s.dataman (.keyPress keyEvent) = PlainEditor.enterKey s.view s.dataman := by
    rcases hkey with hkey | hkey <;>
      simp only [PlainEditor.eventFilter, PlainEditor.keyFilter, hctrl, hkey, Bool.false_eq_true, if_false]
  have he : widgetEdit s.document s.cursor clipboard keyEvent = Document.insertText s.cursor [separator] := by
    rcases hkey with hkey | hkey <;> rw [widgetEdit, hkey] <;> rfl
  by_cases hedit : s.dataman.isEditable (PlainEditor.column s.view) (PlainEditor.currentLine s.view) = false
  · exact mirrors_stop h (hfilter.trans (if_pos hedit))
  · refine mirrors_letThrough (hfilter.trans (if_neg hedit)) he ?_
    have hend := atEnd_of_position hselection hposition
    have hblock : (s.edit (Document.insertText s.cursor [separator])).document = s.document ++ [[]] := by
      have hlines := hend.insertBlock.document
      rw [← hend.document] at hlines
      exact hlines
    rw [if_neg fun heq => List.cons_ne_nil _ _ (congrArg Splice.text heq), hblock]
    exact h.concat

/-- A key that moves the cursor. -/
theorem mirrors_move (h : Mirrors s.document s.dataman) (hctrl : keyEvent.controlModifier = false)
    (hkey : keyEvent.key ∈ [Key.capsLock, .left, .down, .right, .up]) :
    Mirrors (s.step b (.event (.keyPress keyEvent) clipboard)).document
      (s.step b (.event (.keyPress keyEvent) clipboard)).dataman := by
  simp only [List.mem_cons, List.not_mem_nil, or_false] at hkey
  have hsame : Mirrors (if noEdit = noEdit then s.document else (s.edit noEdit).document) s.dataman := by rwa [if_pos rfl]
  refine mirrors_letThrough ?_ ?_ hsame <;>
    rcases hkey with hkey | hkey | hkey | hkey | hkey <;>
    simp only [PlainEditor.eventFilter, PlainEditor.keyFilter, hctrl, hkey, Bool.false_eq_true, if_false, widgetEdit] <;> rfl

/-- Printable ASCII has no line ends. -/
theorem noEnd_of_ascii {str : Bytes} (hstr : ∀ c ∈ str, 0x20 ≤ c ∧ c < 0x7F) :
    ∀ c ∈ str.map UInt8.toUInt16, ¬IsLineEnd c := by
  intro c hc
  obtain ⟨u, hu, rfl⟩ := List.mem_map.mp hc
  have hrange := hstr u hu
  simp only [UInt8.le_iff_toNat_le, UInt8.lt_iff_toNat_lt] at hrange
  rintro (heq | heq | heq | heq | heq) <;> have hnat := congrArg UInt16.toNat heq <;>
    rw [UInt8.toNat_toUInt16] at hnat <;> simp [separator] at hnat hrange <;> omega

/-- Text that is inserted in an empty line is the line. -/
theorem document_insertText_empty {text : List QChar} (hselection : s.anchor = s.position)
    (hblock : s.cursor.position.block = [])
    (hnoEnd : ∀ c ∈ text, ¬IsLineEnd c) :
    (s.insertText text).document = s.document.set s.cursor.position.blockNumber text := by
  obtain ⟨hstart, hstop⟩ := start_of_eq hselection
  have hin := s.cursor.position.hcolumn
  have hedit := document_edit_inside s text s.cursor.position.hblock hin hin (separator_notMem hnoEnd)
  rw [hblock, List.take_nil, List.drop_nil, List.nil_append, List.append_nil] at hedit
  rw [insertText, lineEnds_eq_self hnoEnd, Document.insertText, hstart, hstop]
  exact hedit

/-- A title or a name in a line of its own. -/
theorem mirrors_addField (h : Mirrors s.document s.dataman) (type : FieldType) {str : Bytes} (hselection : s.anchor = s.position)
    (hblock : s.cursor.position.block = [])
    (hnone : s.dataman.fields (UInt32.ofNat s.cursor.position.blockNumber) = [])
    (hstr : ∀ c ∈ str, 0x20 ≤ c ∧ c < 0x7F) (hdecode : fromUtf8 str = str.map UInt8.toUInt16)
    (hsize : s.text.length + str.length < 2 ^ 31) :
    ∃ s', s.addField fromUtf8 type str = .ok s' ∧ Mirrors s'.document s'.dataman := by
  obtain ⟨hn, hend⟩ := s.cursor_sizes
  have hget := s.cursor.position.hblock
  have hcolumn : s.cursor.position.column = 0 := by
    have hle := s.cursor.position.hcolumn
    rw [hblock] at hle
    exact Nat.le_zero.mp hle
  have hcol : PlainEditor.newColumn s.view = 0 := by
    rw [view_of_firstRow (Cursor.firstRow_of_zero s.layout hcolumn)]
    exact PlainEditor.newColumn_eq_zero (by rw [plain_document]; omega) fun _ => by omega
  have hnumber := currentLine_view s
  have hascii : ∀ c ∈ str, c < 128 := fun c hc => UInt8.lt_trans (hstr c hc).2 (by decide)
  have hcstring : cString str = str := cString_eq_self fun hzero => absurd (hstr 0 hzero).1 (by decide)
  have hcall : PlainEditor.addField type s.view s.dataman str = .ok (s.dataman.write
      (UInt32.ofNat s.cursor.position.blockNumber) ((s.dataman.lineFor (UInt32.ofNat s.cursor.position.blockNumber)).push
        (wholeField type str))) := by
    rw [PlainEditor.addField, hcol, hnumber,
      LineManager.addField_of_outside (by rw [hnone]; exact fun _ hg => absurd hg List.not_mem_nil), hcstring, hnone]
    simp only [Field.newString, wholeField, utf8StringSize_of_ascii hascii, List.length_nil, UInt32.zero_add]
  generalize hptr : (s.dataman.lineFor (UInt32.ofNat s.cursor.position.blockNumber)).push (wholeField type str) = ptr at hcall
  have hrow : MirrorsLine ptr.mFields (some (str.map UInt8.toUInt16)) := by
    rw [← hptr, Line.push, Line.setFields_mFields, LineManager.mFields_lineFor, hnone]
    exact .whole type str
  let s' : Sheet := { s with dataman := s.dataman.write (UInt32.ofNat s.cursor.position.blockNumber) ptr }
  have hdocument : (s'.insertText (str.map UInt8.toUInt16)).document =
      s.document.set s.cursor.position.blockNumber (str.map UInt8.toUInt16) :=
    document_insertText_empty (s := s') hselection hblock (noEnd_of_ascii hstr)
  refine ⟨s'.insertText (str.map UInt8.toUInt16), ?_, ?_⟩
  · rw [addField, hcall, ← hdecode]
    rfl
  · rw [hdocument]
    exact h.write (by omega) (List.getElem?_eq_some_iff.mp hget).1 hrow

/-- A step that keeps to whole lines keeps the structure and the document the same. -/
theorem mirrors_act (h : Mirrors s.document s.dataman) {action : Action} (htame : Tame fromUtf8 s action) :
    Mirrors (s.act b fromUtf8 action).document (s.act b fromUtf8 action).dataman := by
  have hadd : ∀ (type : FieldType) {str : Bytes} {c : Call}, s.call fromUtf8 c = (s.addField fromUtf8 type str).toOption →
      Tame fromUtf8 s (.call (.title str)) → Mirrors (s.act b fromUtf8 (.call c)).document (s.act b fromUtf8 (.call c)).dataman := by
    rintro type str c hcall ⟨hselection, hblock, hnone, hstr, hdecode, hsize⟩
    obtain ⟨s', hs', hmirrors⟩ := mirrors_addField h type hselection hblock hnone hstr hdecode hsize
    have hact : s.act b fromUtf8 (.call c) = s' := by
      rw [act, hcall, hs']
      rfl
    rw [hact]
    exact hmirrors
  rcases action with (⟨anchor, position⟩ | layout | ⟨⟨keyEvent⟩ | _, clipboard⟩) | (str | str | _ | _ | str)
  · exact h
  · exact h
  · obtain ⟨hvisible, hctrl, hsize, hkeeps⟩ := htame
    show Mirrors (s.step b (.event (.keyPress keyEvent) clipboard)).document
      (s.step b (.event (.keyPress keyEvent) clipboard)).dataman
    unfold KeepsLines at hkeeps
    cases hkey : keyEvent.key <;> simp only [hkey] at hkeeps
    case other code =>
      obtain ⟨hselection, hfirst, hone, hall⟩ := hkeeps
      obtain ⟨c, hc⟩ := List.length_eq_one_iff.mp hone
      exact mirrors_typed h hvisible hctrl hsize hkey hselection hfirst hc (hall c (hc ▸ List.mem_singleton_self c))
    case backspace => exact mirrors_backspace h hvisible hctrl hsize hkey hkeeps
    case delete => exact mirrors_delete h hvisible hctrl hsize hkey hkeeps
    case enter => exact mirrors_enter h hctrl (.inl hkey) hkeeps.1 hkeeps.2
    case «return» => exact mirrors_enter h hctrl (.inr hkey) hkeeps.1 hkeeps.2
    all_goals exact mirrors_move h hctrl (by rw [hkey]; decide)
  · exact h
  · exact hadd .title rfl htame
  · exact hadd .name rfl htame
  · have hjump : ∀ s', s.jumpLine = some s' → s.act b fromUtf8 (.call .jumpLine) = s' := by
      intro s' hs'
      have hcall : s.call fromUtf8 .jumpLine = some s' := hs'
      rw [act, hcall]
      rfl
    by_cases hnext : s.cursor.position.blockNumber + 1 < s.document.length
    · rw [hjump (s.select _ _) (by rw [jumpLine, moveToNextLine, if_pos hnext, place, if_pos hnext])]
      exact h
    · obtain ⟨hselection, hposition⟩ := htame.resolve_right hnext
      have hend := atEnd_of_position hselection hposition
      obtain ⟨s', hs', hat, hdataman, -⟩ := hend.jumpLine
      rw [hjump s' hs', hat.document, hdataman, ← hend.document]
      exact h.concat
  · exact h
  · exact absurd htame not_false

end Steps

theorem toLatin1_toUInt16 (c : UInt8) : QChar.toLatin1 c.toUInt16 = c := by
  have hle : c.toUInt16 ≤ 0xFF := by
    rw [UInt16.le_iff_toNat_le, UInt8.toNat_toUInt16]
    exact Nat.le_of_lt_succ c.toNat_lt
  rw [QChar.toLatin1, if_pos hle]
  exact UInt8.toUInt8_toUInt16 c

/-- The dump of a line that is mirrored. -/
theorem dumpLine_of_mirrors {lm : LineManager} {d : Document} (h : Mirrors d lm) {line : UInt32} {row : List QChar}
    (hrow : d[line.toNat]? = some row) (hne : row ≠ []) : lm.dumpLine line = .ok (row.map QChar.toLatin1 ++ [blank]) := by
  have hline := h line
  rw [hrow] at hline
  generalize hfields : lm.fields line = fields at hline
  cases hline with
  | nothing hnil => exact absurd hnil hne
  | whole type info =>
    have hmem : wholeField type info ∈ lm.fields line := by rw [hfields]; exact List.mem_singleton_self _
    have hback : (info.map UInt8.toUInt16).map QChar.toLatin1 = info := by
      rw [List.map_map]
      exact (List.map_congr_left fun c _ => toLatin1_toUInt16 c).trans (List.map_id info)
    rw [LineManager.dumpLine_of_get? (LineManager.get?_ne_none_of_mem hmem), LineManager.dumped, LineManager.texts, hfields, hback]
    simp [wholeField]

theorem mirrors_fresh (visible : Bool) (layout : TextLayout) :
    Mirrors (fresh visible layout).document (fresh visible layout).dataman := by
  intro line
  rw [show (fresh visible layout).dataman.fields line = [] from LineManager.fields_empty line]
  refine .nothing ?_
  rw [show (fresh visible layout).document = [[]] from rfl]
  cases line.toNat <;> rfl

/-- In every session that keeps to whole lines the structure is the document: each line has one field that is
the line, or both are empty, and a dump shows the lines as they stand. The lines may be wrapped anew at any time. -/
theorem session_mirrors {b : Build} {fromUtf8 : FromUtf8} {visible : Bool} {layout : TextLayout} {actions : List Action}
    (h : StepsMeet (act b fromUtf8) (Tame fromUtf8) (fresh visible layout) actions) :
    let s := run (act b fromUtf8) (fresh visible layout) actions
    Mirrors s.document s.dataman ∧ ∀ (line : UInt32) (row : List QChar), s.document[line.toNat]? = some row → row ≠ [] →
      s.dataman.dumpLine line = .ok (row.map QChar.toLatin1 ++ [blank]) := by
  intro s
  have hmirrors : Mirrors s.document s.dataman :=
    run_inv_of_stepsMeet (fun s : Sheet => Mirrors s.document s.dataman) (fun _ _ h htame => mirrors_act h htame)
      (mirrors_fresh visible layout) h
  exact ⟨hmirrors, fun line row => dumpLine_of_mirrors hmirrors⟩

/-- A title, a line below it, and a character in that. -/
def titleAndLetter : List Action :=
  [.call (.title [0x54]), .call .jumpLine, .input (.event (.keyPress { key := .other 0x41, controlModifier := false, text := [0x61] }) [])]

theorem session_mirrors_titleAndLetter :
    let s := run (act ⟨false, none⟩ (List.map UInt8.toUInt16)) (fresh true .unwrapped) titleAndLetter
    Mirrors s.document s.dataman ∧ ∀ (line : UInt32) (row : List QChar), s.document[line.toNat]? = some row → row ≠ [] →
      s.dataman.dumpLine line = .ok (row.map QChar.toLatin1 ++ [blank]) := by
  have htitle : ∀ c ∈ ([0x54] : Bytes), 0x20 ≤ c ∧ c < 0x7F := List.forall_mem_singleton.mpr ⟨by decide, by decide⟩
  have hletter : ∀ c ∈ ([0x61] : List QChar), Printable c :=
    List.forall_mem_singleton.mpr (.inr (.inl ⟨by decide, by decide⟩))
  exact session_mirrors ⟨⟨rfl, rfl, rfl, htitle, rfl, by decide⟩, .inl ⟨rfl, rfl⟩,
    ⟨rfl, rfl, by decide, rfl, rfl, rfl, hletter⟩, trivial⟩

end Sheet

end MetaEditor
