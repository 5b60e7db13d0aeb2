import MetaEditor.Data.Dump
import MetaEditor.Editor.Lines

/-!
# Scripts that write lines

A script puts titles and names one behind the other in a line and jumps to the next one. The column that the
editor gives to the structure is two to the right of the cursor, unless the cursor is in the first two columns.
So the first string of a line is recorded where it stands, the second one two columns to the right. There it
still covers the column of the third one, which is lost, and so on: every other string is missing. The editor is wide
enough here: a string that is put in behind a wrapped line gets yet another column.
-/

namespace MetaEditor

open Lib Document

namespace Sheet

/-! ### Calls from a script -/

/-- A `const char*` becomes a `QString` by `fromUtf8`. -/
abbrev FromUtf8 := Bytes → List QChar

def fromLatin1 (str : Bytes) : List QChar := (cString str).map UInt8.toUInt16

/-- `addTitle` and `addName` differ in the type of the field. -/
def addField (fromUtf8 : FromUtf8) (type : FieldType) (str : Bytes) (s : Sheet) : Except Failure Sheet := do
  let dataman ← PlainEditor.addField type s.view s.dataman str
  return { s with dataman }.insertText (fromUtf8 str)

def addTitle (fromUtf8 : FromUtf8) (str : Bytes) (s : Sheet) : Except Failure Sheet := s.addField fromUtf8 .title str

def addName (fromUtf8 : FromUtf8) (str : Bytes) (s : Sheet) : Except Failure Sheet := s.addField fromUtf8 .name str

def jumpLine (s : Sheet) : Option Sheet := s.moveToNextLine

def structureLineCount (s : Sheet) : Int := s.dataman.lineCount.toInt32.toInt

def writeText (str : Bytes) (s : Sheet) : Sheet := s.insertText (fromLatin1 str)

/-- A call through the interface of the editor; `structureLineCount` only looks. -/
inductive Call
  | title (str : Bytes)
  | name (str : Bytes)
  | jumpLine
  | lineCount
  | write (str : Bytes)
  deriving DecidableEq, Repr

/-- The editor after a call, unless an exception or a block that is not valid ends the program. -/
def call (fromUtf8 : FromUtf8) (s : Sheet) : Call → Option Sheet
  | .title str => (s.addTitle fromUtf8 str).toOption
  | .name str => (s.addName fromUtf8 str).toOption
  | .jumpLine => s.jumpLine
  | .lineCount => some s
  | .write str => some (s.writeText str)

/-- The field that a call adds to the structure. -/
def Call.adds : Call → Option (FieldType × Bytes)
  | .title str => some (.title, str)
  | .name str => some (.name, str)
  | .jumpLine | .lineCount | .write _ => none

/-- A call adds its field to the structure or leaves it as it is, also when it ends the program. -/
theorem call_cases (fromUtf8 : FromUtf8) (s : Sheet) (c : Call) :
    ((s.call fromUtf8 c).getD s).visible = s.visible ∧
      (((s.call fromUtf8 c).getD s).dataman = s.dataman ∨ ∃ type str col line, c.adds = some (type, str) ∧
        LineManager.addField type s.dataman str col line = .ok ((s.call fromUtf8 c).getD s).dataman) := by
  have hadd : ∀ (type : FieldType) (str : Bytes), ((s.addField fromUtf8 type str).toOption.getD s).visible = s.visible ∧
      (((s.addField fromUtf8 type str).toOption.getD s).dataman = s.dataman ∨ ∃ col line,
        LineManager.addField type s.dataman str col line = .ok ((s.addField fromUtf8 type str).toOption.getD s).dataman) := by
    intro type str
    unfold addField PlainEditor.addField
    cases hcall : LineManager.addField type s.dataman str (PlainEditor.newColumn s.view) (PlainEditor.currentLine s.view) with
    | error e => exact ⟨rfl, .inl rfl⟩
    | ok lm' => exact ⟨rfl, .inr ⟨_, _, hcall⟩⟩
  cases c with
  | title str =>
    obtain ⟨hvisible, hsame | ⟨col, line, hcall⟩⟩ := hadd .title str
    · exact ⟨hvisible, .inl hsame⟩
    · exact ⟨hvisible, .inr ⟨_, _, col, line, rfl, hcall⟩⟩
  | name str =>
    obtain ⟨hvisible, hsame | ⟨col, line, hcall⟩⟩ := hadd .name str
    · exact ⟨hvisible, .inl hsame⟩
    · exact ⟨hvisible, .inr ⟨_, _, col, line, rfl, hcall⟩⟩
  | jumpLine =>
    rw [call, jumpLine]
    cases hmove : s.moveToNextLine with
    | none => exact ⟨rfl, .inl rfl⟩
    | some s' =>
      have hat := s.moveToNextLine_reaches.1 s' hmove
      exact ⟨hat.visible, .inl hat.dataman⟩
  | lineCount | write str => exact ⟨rfl, .inl rfl⟩

def calls (fromUtf8 : FromUtf8) (s : Sheet) (calls : List Call) : Option Sheet := calls.foldlM (call fromUtf8) s

/-! ### At the end of the text -/

/-- The cursor is behind the last line, with nothing selected. -/
structure AtEnd (s : Sheet) (before : List (List QChar)) (row : List QChar) : Prop where
  document : s.document = before ++ [row]
  anchor : s.anchor = s.text.length
  position : s.position = s.text.length

namespace AtEnd

variable {s : Sheet} {before : List (List QChar)} {row : List QChar}

theorem clean (h : AtEnd s before row) : Clean (before ++ [row]) := h.document ▸ s.clean_document

theorem text (h : AtEnd s before row) : s.text = textBefore before ++ row := by
  rw [← plain_document, h.document, plain_middle, textBehind, List.flatMap_nil, List.append_nil]

theorem length_row_le (h : AtEnd s before row) : row.length ≤ s.text.length := by
  rw [h.text, List.length_append]
  exact Nat.le_add_left _ _

theorem length_before_le (h : AtEnd s before row) : before.length ≤ s.text.length := by
  have hlines : before.length ≤ (textBefore before).length := by
    rw [textBefore, List.length_flatMap]
    calc before.length = (before.map fun _ => 1).sum := by simp
      _ ≤ _ := List.sum_le_sum fun block _ => by rw [List.length_append]; exact Nat.le_add_left _ _
  rw [h.text, List.length_append]
  exact hlines.trans (Nat.le_add_right _ _)

theorem start (h : AtEnd s before row) : s.start = s.text.length := by
  rw [Sheet.start, h.anchor, h.position, min_self]

theorem stop (h : AtEnd s before row) : s.stop = s.text.length := by
  rw [Sheet.stop, h.anchor, h.position, max_self]

theorem cursor (h : AtEnd s before row) :
    s.cursor.position.blockNumber = before.length ∧ s.cursor.position.column = row.length := by
  have hblock : s.document[before.length]? = some row := by
    rw [h.document, List.getElem?_concat_length]
  let p : Place s.document := { blockNumber := before.length, column := row.length, block := row, hblock, hcolumn := le_rfl }
  have hbefore : s.document.take before.length = before := by rw [h.document, List.take_left]
  have hposition : s.cursor.position.position = p.position := by
    rw [position_position_cursor, h.position, h.text, List.length_append, ← hbefore, length_textBefore_take]
    rfl
  obtain ⟨hnumber, hcolumn, -⟩ := Place.eq_of_position hposition
  exact ⟨hnumber, hcolumn⟩

/-- Whether the line is wrapped before its end. -/
theorem firstRow_iff (h : AtEnd s before row) :
    s.FirstRow ↔ s.layout.textStart (before ++ [row]) before.length row.length = 0 := by
  unfold FirstRow Cursor.FirstRow
  rw [h.cursor.1, h.cursor.2, h.document]

theorem of_text (htext : s.text = textBefore before ++ row) (hclean : Clean (before ++ [row]))
    (hanchor : s.anchor = s.text.length) (hposition : s.position = s.text.length) : AtEnd s before row := by
  have hplain : s.text = plain (before ++ [row]) := by
    rw [plain_middle, textBehind, List.flatMap_nil, List.append_nil, htext]
  refine ⟨?_, hanchor, hposition⟩
  rw [Sheet.document, hplain, ofText_plain (List.append_ne_nil_of_right_ne_nil _ (List.cons_ne_nil _ _)) hclean]

/-- What is inserted goes behind the text. -/
theorem text_insertText (h : AtEnd s before row) (text : List QChar) :
    (s.edit (Document.insertText s.cursor text)).text = s.text ++ text ∧
      (s.edit (Document.insertText s.cursor text)).anchor = (s.text ++ text).length ∧
      (s.edit (Document.insertText s.cursor text)).position = (s.text ++ text).length := by
  have htake : s.text.take s.start = s.text := by rw [h.start, List.take_length]
  have hdrop : s.text.drop s.stop = [] := by rw [h.stop, List.drop_length]
  refine ⟨?_, ?_, ?_⟩
  · rw [(s.insertText_spec text).1, htake, hdrop, List.append_nil]
  all_goals
    show (s.text.take s.cursor.selectionStart ++ text).length = _
    rw [selectionStart_cursor, htake]

theorem insertText (h : AtEnd s before row) {text : List QChar} (htext : separator ∉ text) :
    AtEnd (s.edit (Document.insertText s.cursor text)) before (row ++ text) := by
  obtain ⟨hafter, hanchor, hposition⟩ := h.text_insertText text
  have hsplit := List.forall_mem_append.mp h.clean
  refine of_text ?_ (List.forall_mem_append.mpr ⟨hsplit.1, ?_⟩) (hafter ▸ hanchor) (hafter ▸ hposition)
  · rw [hafter, h.text, List.append_assoc]
  · rw [List.forall_mem_singleton, List.mem_append, not_or]
    exact ⟨hsplit.2 row (List.mem_singleton_self row), htext⟩

theorem insertBlock (h : AtEnd s before row) : AtEnd s.insertBlock (before ++ [row]) [] := by
  obtain ⟨hafter, hanchor, hposition⟩ := h.text_insertText [separator]
  refine of_text ?_ ?_ (hafter ▸ hanchor) (hafter ▸ hposition)
  · show (s.edit _).text = _
    rw [hafter, h.text, textBefore, textBefore, List.flatMap_append]
    simp
  · exact List.forall_mem_append.mpr ⟨h.clean, List.forall_mem_singleton.mpr List.not_mem_nil⟩

/-- From the last line the jump makes a new one. -/
theorem jumpLine (h : AtEnd s before row) :
    ∃ s', s.jumpLine = some s' ∧ AtEnd s' (before ++ [row]) [] ∧ s'.dataman = s.dataman ∧ s'.visible = s.visible ∧
      s'.layout = s.layout ∧ s'.text.length = s.text.length + 1 := by
  have hnext := h.insertBlock
  have hlength : s.document.length = before.length + 1 := by rw [h.document, List.length_append, List.length_singleton]
  have hlength' : s.insertBlock.document.length = before.length + 1 + 1 := by
    rw [hnext.document, List.length_append, List.length_append, List.length_singleton, List.length_singleton]
  have hoffset : s.insertBlock.document.offset (before.length + 1) = s.insertBlock.text.length := by
    have htake : s.insertBlock.document.take (before.length + 1) = before ++ [row] := by
      rw [hnext.document]
      exact List.take_left' (by rw [List.length_append, List.length_singleton])
    rw [← length_textBefore_take, htake, hnext.text, List.append_nil]
  refine ⟨s.insertBlock.select s.insertBlock.text.length s.insertBlock.text.length, ?_, ?_, rfl, rfl, rfl, ?_⟩
  · rw [Sheet.jumpLine, moveToNextLine, h.cursor.1, hlength, if_neg (lt_irrefl _), place, hlength',
      if_pos (Nat.lt_succ_self _), hoffset]
  · exact ⟨hnext.document, min_self _, min_self _⟩
  · show s.insertBlock.text.length = _
    rw [Sheet.insertBlock, (h.text_insertText [separator]).1, List.length_append, List.length_singleton]

end AtEnd

/-! ### One string -/

/-- A title or a name that a script puts in a line. -/
structure Item where
  isTitle : Bool
  text : ScriptText

namespace Item

def type (i : Item) : FieldType := if i.isTitle then .title else .name

def call (i : Item) : Call := if i.isTitle then .title i.text.bytes else .name i.text.bytes

def units (i : Item) : List QChar := utf16 i.text.chars

/-- Two characters or more, each of one code unit and none of them a line end. -/
structure Wide (i : Item) : Prop where
  two_le : 2 ≤ i.units.length
  bmp : ∀ c ∈ i.text.chars, c.toNat < 0x10000
  noEnd : ∀ c ∈ i.units, ¬IsLineEnd c

theorem Wide.utf8StringSize {i : Item} (h : i.Wide) : utf8StringSize i.text.bytes = i.units.length := by
  rw [ScriptText.bytes, utf8StringSize_utf8]
  exact ((length_utf16_eq_iff i.text.chars).mpr h.bmp).symm

/-- The field that is made for the string at a column. -/
def field (i : Item) (pos column : Nat) : Field := .newString i.type pos (UInt32.ofNat column) i.text.bytes

theorem toNat_field {i : Item} (h : i.Wide) (pos column : Nat) (hsize : column + i.units.length < 2 ^ 32) :
    (i.field pos column).mStart.toNat = column ∧ (i.field pos column).mEnd.toNat = column + i.units.length := by
  have hstart : (UInt32.ofNat column).toNat = column := by
    rw [UInt32.toNat_ofNat']
    omega
  refine ⟨hstart, ?_⟩
  show (UInt32.ofNat column + UInt32.ofNat (MetaEditor.utf8StringSize i.text.bytes)).toNat = _
  rw [h.utf8StringSize, UInt32.toNat_add, hstart, UInt32.toNat_ofNat']
  omega

end Item

variable {fromUtf8 : FromUtf8} {s : Sheet} {before : List (List QChar)} {row : List QChar} {i : Item}

/-- The end of the last line is in its first visual line. -/
def RowFits (layout : TextLayout) (before : List (List QChar)) (row : List QChar) : Prop :=
  layout.textStart (before ++ [row]) before.length row.length = 0

/-- A title or a name at the end of the text: the column is `0` in the first two columns, else two more. -/
theorem call_item (h : AtEnd s before row) (hvisible : s.visible = true) (hfits : RowFits s.layout before row)
    (hwide : i.Wide) (hdecode : fromUtf8 i.text.bytes = i.units) (hsize : s.text.length < 2 ^ 31) :
    ∃ s', s.call fromUtf8 i.call = some s' ∧ AtEnd s' before (row ++ i.units) ∧ s'.visible = true ∧ s'.layout = s.layout ∧
      s'.text.length = s.text.length + i.units.length ∧
      LineManager.addField i.type s.dataman i.text.bytes (UInt32.ofNat (if 1 < row.length then row.length + 2 else 0))
        (UInt32.ofNat before.length) = .ok s'.dataman := by
  obtain ⟨hblock, hcolumn⟩ := h.cursor
  have hview : s.view = s.cursor.viewIf s.visible := view_of_firstRow (h.firstRow_iff.mpr hfits)
  have hcol : PlainEditor.newColumn s.view = UInt32.ofNat (if 1 < row.length then row.length + 2 else 0) := by
    have hnat := toNat_newColumn_viewIf (c := s.cursor) (by rw [plain_document]; exact hsize) s.visible
    rw [hcolumn, hvisible] at hnat
    rw [hview, hvisible, ← UInt32.toNat_inj, hnat, UInt32.toNat_ofNat']
    have hrow := h.length_row_le
    simp only [true_and]
    split_ifs <;> omega
  have hline : PlainEditor.currentLine s.view = UInt32.ofNat before.length := by
    rw [← hblock]
    exact Cursor.currentLine_viewIn s.layout s.cursor
  obtain ⟨lm', hadd⟩ : ∃ lm', PlainEditor.addField i.type s.view s.dataman i.text.bytes = .ok lm' := by
    rcases LineManager.addField_cases i.type s.dataman i.text.bytes (PlainEditor.newColumn s.view)
      (PlainEditor.currentLine s.view) with ⟨_, _, _, hcall⟩ | ⟨_, _, _, hcall⟩ <;> exact ⟨_, hcall⟩
  let s₁ : Sheet := { s with dataman := lm' }
  have hend : AtEnd s₁ before row := ⟨h.document, h.anchor, h.position⟩
  have htext : lineEnds i.units = i.units := lineEnds_eq_self hwide.noEnd
  have hclean : separator ∉ i.units := separator_notMem hwide.noEnd
  refine ⟨s₁.insertText i.units, ?_, ?_, hvisible, rfl, ?_, ?_⟩
  · have hfield : s.addField fromUtf8 i.type i.text.bytes = .ok (s₁.insertText i.units) := by
      rw [addField, hadd, ← hdecode]
      rfl
    unfold call Item.call
    cases htitle : i.isTitle with
    | true | false =>
      rw [Item.type, htitle] at hfield
      exact congrArg Except.toOption hfield
  · rw [insertText, htext]
    exact hend.insertText hclean
  · rw [insertText, htext, (hend.text_insertText i.units).1, List.length_append]
  · rw [← hcol, ← hline]
    exact hadd

/-! ### One line -/

/-- What is recorded of the strings from a column on, when nothing is recorded two columns right of it or
further: every other one is lost. -/
def recordedFrom (pos column : Nat) : List Item → List Field
  | [] => []
  | [i] => [i.field pos (column + 2)]
  | i :: lost :: items =>
    i.field pos (column + 2) :: recordedFrom (pos + 1) (column + i.units.length + lost.units.length) items

/-- What is recorded of the strings of a line. -/
def recorded : List Item → List Field
  | [] => []
  | i :: items => i.field 0 0 :: recordedFrom 1 i.units.length items

/-- What the document shows of them. -/
def written (items : List Item) : List QChar := items.flatMap Item.units

/-- The editor after a part of a line: the lines but the last are as they were. -/
structure Wrote (s s' : Sheet) (before : List (List QChar)) (row : List QChar) (fields : List Field) : Prop where
  atEnd : AtEnd s' before row
  visible : s'.visible = true
  layout : s'.layout = s.layout
  fields : s'.dataman.fields (UInt32.ofNat before.length) = fields
  others : ∀ line, line ≠ UInt32.ofNat before.length → s'.dataman.fields line = s.dataman.fields line

theorem Wrote.trans {s s' s'' : Sheet} {row row' : List QChar} {fields fields' : List Field} (h : Wrote s s' before row fields)
    (h' : Wrote s' s'' before row' fields') : Wrote s s'' before row' fields' :=
  { h' with
    layout := h'.layout.trans h.layout
    others := fun line hline => (h'.others line hline).trans (h.others line hline) }

theorem calls_cons {s s' : Sheet} {c : Call} (h : s.call fromUtf8 c = some s') (rest : List Call) :
    s.calls fromUtf8 (c :: rest) = s'.calls fromUtf8 rest := by
  rw [calls, List.foldlM_cons, h]
  rfl

theorem calls_append {s s' : Sheet} {first : List Call} (h : s.calls fromUtf8 first = some s') (rest : List Call) :
    s.calls fromUtf8 (first ++ rest) = s'.calls fromUtf8 rest := by
  rw [calls] at h
  rw [calls, List.foldlM_append, h]
  rfl

/-- On a free column the string is recorded. -/
theorem call_item_free (column : Nat) (h : AtEnd s before row) (hvisible : s.visible = true)
    (hfits : RowFits s.layout before row) (hwide : i.Wide) (hdecode : fromUtf8 i.text.bytes = i.units)
    (hsize : s.text.length < 2 ^ 31)
    (hcolumn : (if 1 < row.length then row.length + 2 else 0) = column)
    (hfree : ∀ g ∈ s.dataman.fields (UInt32.ofNat before.length), g.atRange (UInt32.ofNat column) = false) :
    ∃ s', s.call fromUtf8 i.call = some s' ∧
      Wrote s s' before (row ++ i.units) (s.dataman.fields (UInt32.ofNat before.length) ++
        [i.field (s.dataman.fields (UInt32.ofNat before.length)).length column]) ∧
      s'.text.length = s.text.length + i.units.length := by
  obtain ⟨s', hcall, hend, hvisible', hlayout, hlength, hadd⟩ := call_item h hvisible hfits hwide hdecode hsize
  rw [hcolumn, LineManager.addField_of_outside hfree, i.text.cString_bytes] at hadd
  have hdataman := (Except.ok.inj hadd).symm
  refine ⟨s', hcall, ⟨hend, hvisible', hlayout, ?_, fun line hline => ?_⟩, hlength⟩
  · rw [hdataman, LineManager.fields_write_self, Line.push, Line.setFields_mFields, LineManager.mFields_lineFor]
    rfl
  · rw [hdataman, LineManager.fields_write_of_ne hline.symm]

/-- On an occupied one it is lost. -/
theorem call_item_lost (column : Nat) (h : AtEnd s before row) (hvisible : s.visible = true)
    (hfits : RowFits s.layout before row) (hwide : i.Wide) (hdecode : fromUtf8 i.text.bytes = i.units)
    (hsize : s.text.length < 2 ^ 31)
    (hcolumn : (if 1 < row.length then row.length + 2 else 0) = column) {g : Field}
    (hg : g ∈ s.dataman.fields (UInt32.ofNat before.length)) (hin : g.atRange (UInt32.ofNat column) = true) :
    ∃ s', s.call fromUtf8 i.call = some s' ∧
      Wrote s s' before (row ++ i.units) (s.dataman.fields (UInt32.ofNat before.length)) ∧
      s'.text.length = s.text.length + i.units.length := by
  obtain ⟨s', hcall, hend, hvisible', hlayout, hlength, hadd⟩ := call_item h hvisible hfits hwide hdecode hsize
  obtain ⟨j, f, hfirst⟩ := exists_firstAt fun hout => Bool.eq_false_iff.mp (hout g hg) hin
  rw [hcolumn, LineManager.addField_of_firstAt hfirst] at hadd
  have hdataman := (Except.ok.inj hadd).symm
  refine ⟨s', hcall, ⟨hend, hvisible', hlayout, ?_, fun line _ => ?_⟩, hlength⟩ <;> rw [hdataman]

/-- A column right of all fields is free. -/
theorem outside_of_left {fields : List Field} {column : Nat} (hleft : ∀ g ∈ fields, g.mEnd.toNat < column)
    (hsize : column < 2 ^ 32) : ∀ g ∈ fields, g.atRange (UInt32.ofNat column) = false := by
  intro g hg
  have hlt := hleft g hg
  rw [Field.atRange_eq_false, UInt32.le_iff_toNat_le, UInt32.le_iff_toNat_le, UInt32.toNat_ofNat', Nat.mod_eq_of_lt hsize]
  omega

/-- Two strings one behind the other: the first one ends at the column that is given for the second one. -/
theorem call_pair {lost : Item} (hi : i.Wide) (hlost : lost.Wide) (hdi : fromUtf8 i.text.bytes = i.units)
    (hdlost : fromUtf8 lost.text.bytes = lost.units) (pos column : Nat) (h : AtEnd s before row) (hvisible : s.visible = true)
    (hfits : RowFits s.layout before row) (hfits' : RowFits s.layout before (row ++ i.units))
    (hcolumn : row.length = column) (hpast : 2 ≤ column)
    (hpos : (s.dataman.fields (UInt32.ofNat before.length)).length = pos)
    (hleft : ∀ g ∈ s.dataman.fields (UInt32.ofNat before.length), g.mEnd.toNat < column + 2)
    (hsize : s.text.length + (i.units.length + lost.units.length) < 2 ^ 31) :
    ∃ s', (∀ items, s.calls fromUtf8 (i.call :: lost.call :: items) = s'.calls fromUtf8 items) ∧
      Wrote s s' before (row ++ i.units ++ lost.units)
        (s.dataman.fields (UInt32.ofNat before.length) ++ [i.field pos (column + 2)]) ∧
      (i.field pos (column + 2)).mEnd.toNat = column + 2 + i.units.length ∧
      s'.text.length = s.text.length + i.units.length + lost.units.length := by
  have hrow : row.length ≤ s.text.length := h.length_row_le
  obtain ⟨s₁, hcall₁, hwrote₁, hlength₁⟩ := call_item_free (column + 2) h hvisible hfits hi hdi (by omega)
    (by rw [if_pos (by omega), hcolumn]) (outside_of_left hleft (by omega))
  rw [hpos] at hwrote₁
  obtain ⟨hstart, hstop⟩ := i.toNat_field hi pos (column + 2) (by omega)
  have hcolumn₁ : (row ++ i.units).length = column + i.units.length := by rw [List.length_append, hcolumn]
  have hmem : i.field pos (column + 2) ∈ s₁.dataman.fields (UInt32.ofNat before.length) := by
    rw [hwrote₁.fields]
    exact List.mem_append_right _ (List.mem_singleton_self _)
  have hin : (i.field pos (column + 2)).atRange (UInt32.ofNat (column + i.units.length + 2)) = true := by
    rw [Field.atRange_eq_true, UInt32.le_iff_toNat_le, UInt32.le_iff_toNat_le, UInt32.toNat_ofNat', hstart, hstop]
    omega
  obtain ⟨s₂, hcall₂, hwrote₂, hlength₂⟩ := call_item_lost (column + i.units.length + 2) hwrote₁.atEnd hwrote₁.visible
    (hwrote₁.layout ▸ hfits') hlost hdlost (by omega) (by rw [if_pos (by omega), hcolumn₁]) hmem hin
  refine ⟨s₂, fun items => ?_, ?_, hstop, hlength₂.trans (by rw [hlength₁])⟩
  · rw [calls_cons hcall₁, calls_cons hcall₂]
  · have hboth := hwrote₁.trans hwrote₂
    rwa [hwrote₁.fields] at hboth

/-- A line is not wrapped before the places where strings are put in. -/
def ItemsFit (layout : TextLayout) (before : List (List QChar)) : List QChar → List Item → Prop
  | _, [] => True
  | row, i :: items => RowFits layout before row ∧ ItemsFit layout before (row ++ i.units) items

/-- The strings of one line after some have been written, by induction as `recordedFrom` goes: two at a time. -/
theorem calls_items (items : List Item) (hwide : ∀ i ∈ items, i.Wide)
    (hdecode : ∀ i ∈ items, fromUtf8 i.text.bytes = i.units) (pos column : Nat) {s : Sheet} {row : List QChar}
    (h : AtEnd s before row) (hvisible : s.visible = true) (hfits : ItemsFit s.layout before row items)
    (hcolumn : row.length = column) (hpast : 2 ≤ column)
    (hpos : (s.dataman.fields (UInt32.ofNat before.length)).length = pos)
    (hleft : ∀ g ∈ s.dataman.fields (UInt32.ofNat before.length), g.mEnd.toNat < column + 2)
    (hsize : s.text.length + (written items).length < 2 ^ 31) :
    ∃ s', s.calls fromUtf8 (items.map Item.call) = some s' ∧
      Wrote s s' before (row ++ written items)
        (s.dataman.fields (UInt32.ofNat before.length) ++ recordedFrom pos column items) ∧
      s'.text.length = s.text.length + (written items).length := by
  induction pos, column, items using recordedFrom.induct generalizing s row with
  | case1 pos column =>
    refine ⟨s, rfl, ⟨?_, hvisible, rfl, ?_, fun _ _ => rfl⟩, rfl⟩
    · rw [written, List.flatMap_nil, List.append_nil]
      exact h
    · rw [recordedFrom, List.append_nil]
  | case2 pos column i =>
    have hi := hwide i List.mem_cons_self
    have hrow : row.length ≤ s.text.length := h.length_row_le
    have hunits : written [i] = i.units := by rw [written, List.flatMap_cons, List.flatMap_nil, List.append_nil]
    rw [hunits] at hsize ⊢
    obtain ⟨s', hcall, hwrote, hlength⟩ := call_item_free (column + 2) h hvisible hfits.1 hi
      (hdecode i List.mem_cons_self) (by omega) (by rw [if_pos (by omega), hcolumn]) (outside_of_left hleft (by omega))
    rw [hpos] at hwrote
    exact ⟨s', calls_cons hcall [], hwrote, hlength⟩
  | case3 pos column i lost items ih =>
    obtain ⟨hi, hrest⟩ := List.forall_mem_cons.mp hwide
    obtain ⟨hlost, hrest⟩ := List.forall_mem_cons.mp hrest
    obtain ⟨hdi, hdrest⟩ := List.forall_mem_cons.mp hdecode
    obtain ⟨hdlost, hdrest⟩ := List.forall_mem_cons.mp hdrest
    have hunits : written (i :: lost :: items) = i.units ++ (lost.units ++ written items) := rfl
    have hiwidth := hi.two_le
    have hlostwidth := hlost.two_le
    rw [hunits, List.length_append, List.length_append] at hsize
    obtain ⟨s₂, hcalls₂, hwrote₂, hstop, hlength₂⟩ := call_pair hi hlost hdi hdlost pos column h hvisible hfits.1 hfits.2.1
      hcolumn hpast hpos hleft (by omega)
    have hcolumn₂ : (row ++ i.units ++ lost.units).length = column + i.units.length + lost.units.length := by
      rw [List.length_append, List.length_append, hcolumn]
    have hleft₂ : ∀ g ∈ s₂.dataman.fields (UInt32.ofNat before.length),
        g.mEnd.toNat < column + i.units.length + lost.units.length + 2 := by
      rw [hwrote₂.fields]
      intro g hg
      rcases List.mem_append.mp hg with hg | hg
      · have hlt := hleft g hg
        omega
      · rw [List.mem_singleton.mp hg, hstop]
        omega
    obtain ⟨s₃, hcalls, hwrote₃, hlength₃⟩ := ih hrest hdrest hwrote₂.atEnd hwrote₂.visible (hwrote₂.layout ▸ hfits.2.2)
      hcolumn₂ (by omega) (by rw [hwrote₂.fields, List.length_append, hpos]; rfl) hleft₂ (by omega)
    refine ⟨s₃, ?_, ?_, ?_⟩
    · rw [List.map_cons, List.map_cons, hcalls₂, hcalls]
    · have hall := hwrote₂.trans hwrote₃
      rw [hwrote₂.fields] at hall
      simpa only [hunits, recordedFrom, List.append_assoc, List.singleton_append] using hall
    · rw [hlength₃, hlength₂, hunits, List.length_append, List.length_append]
      omega

/-- The strings of a new line. -/
theorem calls_line (items : List Item) (hwide : ∀ i ∈ items, i.Wide)
    (hdecode : ∀ i ∈ items, fromUtf8 i.text.bytes = i.units) {s : Sheet} (h : AtEnd s before []) (hvisible : s.visible = true)
    (hfits : ItemsFit s.layout before [] items) (hnone : s.dataman.fields (UInt32.ofNat before.length) = [])
    (hsize : s.text.length + (written items).length < 2 ^ 31) :
    ∃ s', s.calls fromUtf8 (items.map Item.call) = some s' ∧ Wrote s s' before (written items) (recorded items) ∧
      s'.text.length = s.text.length + (written items).length := by
  cases items with
  | nil => exact ⟨s, rfl, ⟨h, hvisible, rfl, hnone, fun _ _ => rfl⟩, rfl⟩
  | cons i items =>
    obtain ⟨hi, hrest⟩ := List.forall_mem_cons.mp hwide
    obtain ⟨hdi, hdrest⟩ := List.forall_mem_cons.mp hdecode
    have hunits : written (i :: items) = i.units ++ written items := rfl
    rw [hunits, List.length_append] at hsize
    obtain ⟨s₁, hcall₁, hwrote₁, hlength₁⟩ := call_item_free 0 h hvisible hfits.1 hi hdi (by omega) rfl
      (by rw [hnone]; exact fun _ hg => absurd hg List.not_mem_nil)
    rw [hnone, List.length_nil, List.nil_append, List.nil_append] at hwrote₁
    have hstop := (i.toNat_field hi 0 0 (by omega)).2
    obtain ⟨s₂, hcalls, hwrote₂, hlength₂⟩ := calls_items items hrest hdrest 1 i.units.length hwrote₁.atEnd hwrote₁.visible
      (hwrote₁.layout ▸ hfits.2) rfl hi.two_le (by rw [hwrote₁.fields]; rfl)
      (by rw [hwrote₁.fields, List.forall_mem_singleton, hstop]; omega) (by omega)
    refine ⟨s₂, ?_, ?_, ?_⟩
    · rw [List.map_cons, calls_cons hcall₁, hcalls]
    · have hall := hwrote₁.trans hwrote₂
      rw [hwrote₁.fields] at hall
      exact hall
    · rw [hlength₂, hlength₁, hunits, List.length_append, Nat.add_assoc]

/-! ### A whole script -/

/-- A script that writes lines: the strings of one line, and before each further one a jump. -/
def script : List (List Item) → List Call
  | [] => []
  | [items] => items.map Item.call
  | items :: next :: rest => items.map Item.call ++ .jumpLine :: script (next :: rest)

/-- The same of all lines of a script, which come behind those that are there. -/
def ScriptFits (layout : TextLayout) (before : List (List QChar)) : List (List Item) → Prop
  | [] => True
  | items :: rows => ItemsFit layout before [] items ∧ ScriptFits layout (before ++ [written items]) rows

theorem eq_ofNat_iff {n : Nat} (hn : n < 2 ^ 32) (line : UInt32) : line = UInt32.ofNat n ↔ line.toNat = n := by
  rw [← UInt32.toNat_inj, UInt32.toNat_ofNat', Nat.mod_eq_of_lt hn]

/-- All lines after one has been written that was the last. -/
theorem Wrote.fields_line {s s' : Sheet} {row : List QChar} {fields : List Field} (h : Wrote s s' before row fields)
    (hnone : ∀ line : UInt32, before.length ≤ line.toNat → s.dataman.fields line = []) (hsize : before.length < 2 ^ 32)
    (line : UInt32) : s'.dataman.fields line = if line.toNat < before.length then s.dataman.fields line
      else if line.toNat = before.length then fields else [] := by
  by_cases heq : line.toNat = before.length
  · rw [if_neg (by omega), if_pos heq, (eq_ofNat_iff hsize line).mpr heq, h.fields]
  · rw [h.others line fun hline => heq ((eq_ofNat_iff hsize line).mp hline), if_neg heq]
    split_ifs with hlt
    · rfl
    · exact hnone line (not_lt.mp hlt)

/-- What is recorded in a line, when the rows begin in a line of their own. -/
theorem fields_rows (n : Nat) (line : UInt32) (fields : List Field) (items : List Item) (rows : List (List Item)) :
    (if line.toNat < n then fields else ((items :: rows)[line.toNat - n]?).elim [] recorded) =
      if line.toNat < n then fields else if line.toNat = n then recorded items
      else (rows[line.toNat - (n + 1)]?).elim [] recorded := by
  split_ifs with hlt heq
  · rfl
  · rw [heq, Nat.sub_self]
    rfl
  · rw [show line.toNat - n = (line.toNat - (n + 1)) + 1 by omega]
    rfl

/-- The size of the text that a script writes. -/
def scriptSize (rows : List (List Item)) : Nat := (rows.map fun items => (written items).length + 1).sum

theorem calls_script (rows : List (List Item)) (hne : rows ≠ []) (hwide : ∀ items ∈ rows, ∀ i ∈ items, i.Wide)
    (hdecode : ∀ items ∈ rows, ∀ i ∈ items, fromUtf8 i.text.bytes = i.units) {s : Sheet} {before : List (List QChar)}
    (h : AtEnd s before []) (hvisible : s.visible = true) (hfits : ScriptFits s.layout before rows)
    (hnone : ∀ line : UInt32, before.length ≤ line.toNat → s.dataman.fields line = [])
    (hsize : s.text.length + scriptSize rows < 2 ^ 31) :
    ∃ s', s.calls fromUtf8 (script rows) = some s' ∧ s'.document = before ++ rows.map written ∧
      ∀ line : UInt32, s'.dataman.fields line =
        if line.toNat < before.length then s.dataman.fields line
        else (rows[line.toNat - before.length]?).elim [] recorded := by
  induction rows using script.induct generalizing s before with
  | case1 => exact absurd rfl hne
  | case2 items =>
    have hunits : scriptSize [items] = (written items).length + 1 := rfl
    have hbefore := h.length_before_le
    obtain ⟨s', hcalls, hwrote, -⟩ := calls_line items (hwide items List.mem_cons_self)
      (hdecode items List.mem_cons_self) h hvisible hfits.1 (hnone _ (by rw [UInt32.toNat_ofNat']; omega)) (by omega)
    refine ⟨s', hcalls, hwrote.atEnd.document, fun line => ?_⟩
    rw [hwrote.fields_line hnone (by omega), fields_rows]
    rfl
  | case3 items next rest ih =>
    have hunits : scriptSize (items :: next :: rest) = (written items).length + 1 + scriptSize (next :: rest) := rfl
    have hbefore := h.length_before_le
    obtain ⟨hitems, hrest⟩ := List.forall_mem_cons.mp hwide
    obtain ⟨hditems, hdrest⟩ := List.forall_mem_cons.mp hdecode
    obtain ⟨s₁, hcalls₁, hwrote, hlength₁⟩ := calls_line items hitems hditems h hvisible hfits.1
      (hnone _ (by rw [UInt32.toNat_ofNat']; omega)) (by omega)
    obtain ⟨s₂, hjump, hend₂, hdataman₂, hvisible₂, hlayout₂, hlength₂⟩ := hwrote.atEnd.jumpLine
    have hbefore₂ : (before ++ [written items]).length = before.length + 1 := by
      rw [List.length_append, List.length_singleton]
    have hfields : ∀ line : UInt32, s₂.dataman.fields line = _ := fun line => by
      rw [hdataman₂, hwrote.fields_line hnone (by omega) line]
    obtain ⟨s', hcalls, hdocument, hall⟩ := ih (List.cons_ne_nil _ _) hrest hdrest hend₂ (hvisible₂.trans hwrote.visible)
      (hlayout₂.trans hwrote.layout ▸ hfits.2) (fun line hline => by rw [hfields, if_neg (by omega), if_neg (by omega)])
      (by omega)
    refine ⟨s', ?_, ?_, fun line => ?_⟩
    · have hcall : s₁.call fromUtf8 .jumpLine = some s₂ := hjump
      rw [script, calls_append hcalls₁, calls_cons hcall, hcalls]
    · rw [hdocument, List.append_assoc]
      rfl
    · rw [hall, hfields, hbefore₂, fields_rows before.length line _ items]
      rcases Nat.lt_trichotomy line.toNat before.length with hlt | heq | hlt
      · rw [if_pos (by omega)]
        simp only [if_pos hlt]
      · rw [if_pos (by omega)]
        simp only [heq, lt_irrefl, if_false, if_true]
      · rw [if_neg (by omega), if_neg (by omega), if_neg (by omega)]

/-! ### What is lost -/

/-- Of the strings of a line the first is kept, and of the others every other one. -/
def keeps (item : Item × Nat) : Bool := item.2 = 0 || item.2 % 2 = 1

def kept (items : List Item) : List Item := (items.zipIdx.filter keeps).map Prod.fst

theorem texts_recordedFrom (pos column k : Nat) (hk : k % 2 = 1) (items : List Item) :
    (recordedFrom pos column items).map Field.mInfo =
      (((items.zipIdx k).filter keeps).map Prod.fst).map fun i => i.text.bytes := by
  have hodd : ∀ (i : Item) {j}, j % 2 = 1 → keeps (i, j) = true := by
    simp +contextual [keeps]
  have heven : ∀ (i : Item) {j}, j % 2 = 1 → ¬keeps (i, j + 1) = true := by
    intro i j hj
    simp only [keeps, Bool.or_eq_true, decide_eq_true_eq]
    omega
  induction pos, column, items using recordedFrom.induct generalizing k with
  | case1 => rfl
  | case2 pos column i =>
    rw [List.zipIdx_cons, List.zipIdx_nil, List.filter_cons_of_pos (hodd i hk)]
    rfl
  | case3 pos column i lost items ih =>
    rw [List.zipIdx_cons, List.zipIdx_cons, List.filter_cons_of_pos (hodd i hk), List.filter_cons_of_neg (heven lost hk),
      recordedFrom, List.map_cons, ih (k + 1 + 1) (by omega)]
    rfl

theorem texts_recorded (items : List Item) : (recorded items).map Field.mInfo = (kept items).map fun i => i.text.bytes := by
  cases items with
  | nil => rfl
  | cons i items =>
    rw [recorded, List.map_cons, texts_recordedFrom 1 _ 1 rfl, kept, List.zipIdx_cons, List.filter_cons_of_pos rfl]
    rfl

/-- A script that writes lines in a new editor, wide enough for them, puts every string in the document. The structure has
of each line the first string, every other one of those that follow, and these two columns too far to the right. -/
theorem script_recorded {layout : TextLayout} {rows : List (List Item)} (hne : rows ≠ [])
    (hwide : ∀ items ∈ rows, ∀ i ∈ items, i.Wide)
    (hdecode : ∀ items ∈ rows, ∀ i ∈ items, fromUtf8 i.text.bytes = i.units) (hfits : ScriptFits layout [] rows)
    (hsize : scriptSize rows < 2 ^ 31) :
    ∃ s', (fresh true layout).calls fromUtf8 (script rows) = some s' ∧ s'.document = rows.map written ∧
      ∀ line : UInt32, s'.dataman.fields line = (rows[line.toNat]?).elim [] recorded ∧
        s'.dataman.texts line = (rows[line.toNat]?).elim [] fun items => (kept items).map fun i => i.text.bytes := by
  have hend : AtEnd (fresh true layout) [] [] := ⟨rfl, rfl, rfl⟩
  obtain ⟨s', hcalls, hdocument, hfields⟩ := calls_script rows hne hwide hdecode hend rfl hfits
    (fun line _ => LineManager.fields_empty line)
    (by rw [show (fresh true layout).text.length = 0 from rfl, Nat.zero_add]; exact hsize)
  have hline : ∀ line : UInt32, s'.dataman.fields line = (rows[line.toNat]?).elim [] recorded := fun line => by
    rw [hfields, List.length_nil, if_neg (Nat.not_lt_zero _), Nat.sub_zero]
  refine ⟨s', hcalls, hdocument, fun line => ⟨hline line, ?_⟩⟩
  rw [LineManager.texts, hline]
  cases rows[line.toNat]? with
  | none => rfl
  | some items => exact texts_recorded items

/-- The name `ab`. -/
def ab : Item where
  isTitle := false
  text := { chars := ['a', 'b'], ne_nil := nofun, no_nul := by simp, size_lt := by decide }

theorem wide_ab : ab.Wide := by
  have hunits : ab.units = [97, 98] := by decide
  refine ⟨by decide, by simp [ab], ?_⟩
  rw [hunits]
  simp [IsLineEnd, separator]

/-- Three names in one line and one in the next. -/
def twoLines : List (List Item) := [[ab, ab, ab], [ab]]

theorem script_recorded_twoLines :
    ∃ s', (fresh true .unwrapped).calls (List.map UInt8.toUInt16) (script twoLines) = some s' ∧
      s'.document = twoLines.map written ∧
      ∀ line : UInt32, s'.dataman.fields line = (twoLines[line.toNat]?).elim [] recorded ∧
        s'.dataman.texts line = (twoLines[line.toNat]?).elim [] fun items => (kept items).map fun i => i.text.bytes := by
  have hab : ∀ items ∈ twoLines, ∀ i ∈ items, i = ab := by simp [twoLines]
  exact script_recorded (List.cons_ne_nil _ _) (fun items hitems i hi => hab items hitems i hi ▸ wide_ab)
    (fun items hitems i hi => hab items hitems i hi ▸ by decide)
    ⟨⟨rfl, rfl, rfl, trivial⟩, ⟨rfl, trivial⟩, trivial⟩ (by decide)

end Sheet

end MetaEditor
