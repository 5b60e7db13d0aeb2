import MetaEditor.Data.Size
import MetaEditor.Editor.Document

/-!
# Text that a script inserts

`addTitle` and `addName` of the editor put a string in the document at the cursor and a field in the
structure. The document counts UTF-16 code units from the place where the text lands, the structure
counts characters from a column of its own choice, and adds nothing when that column is in a field.
-/

namespace MetaEditor

open Lib

/-- `QTextCursor::insertText` ends a block at a line feed, a carriage return or both together, and at the separators of
`QTextDocument`. -/
def IsLineEnd (c : QChar) : Prop := c = 0x0A ∨ c = 0x0D ∨ c = separator ∨ c = 0xFDD0 ∨ c = 0xFDD1

instance (c : QChar) : Decidable (IsLineEnd c) := inferInstanceAs (Decidable (_ ∨ _))

/-- The text as `insertText` puts it in. -/
def lineEnds : List QChar → List QChar
  | [] => []
  | 0x0D :: 0x0A :: rest => separator :: lineEnds rest
  | c :: rest => if IsLineEnd c then separator :: lineEnds rest else c :: lineEnds rest

/-- Text without line ends goes in as it is. -/
theorem lineEnds_eq_self {text : List QChar} (h : ∀ c ∈ text, ¬IsLineEnd c) : lineEnds text = text := by
  induction text using lineEnds.induct with
  | case1 => rfl
  | case2 rest ih => exact absurd (.inr (.inl rfl)) (h 0x0D List.mem_cons_self)
  | case3 c rest hcr hend ih => exact absurd hend (h c List.mem_cons_self)
  | case4 c rest hcr hend ih =>
    rw [lineEnds, if_neg hend, ih fun c' hc' => h c' (List.mem_cons_of_mem _ hc')]
    exact hcr

theorem separator_notMem {text : List QChar} (h : ∀ c ∈ text, ¬IsLineEnd c) : separator ∉ text :=
  fun hmem => h separator hmem (.inr (.inr (.inl rfl)))

theorem length_lineEnds_le (text : List QChar) : (lineEnds text).length ≤ text.length := by
  induction text using lineEnds.induct with
  | case1 => exact le_rfl
  | case2 rest ih =>
    rw [lineEnds, List.length_cons, List.length_cons, List.length_cons]
    omega
  | case3 c rest hcr hend ih =>
    rw [lineEnds, if_pos hend, List.length_cons, List.length_cons]
    · exact Nat.succ_le_succ ih
    · exact hcr
  | case4 c rest hcr hend ih =>
    rw [lineEnds, if_neg hend, List.length_cons, List.length_cons]
    · exact Nat.succ_le_succ ih
    · exact hcr

/-- What a script gives: valid UTF-8 that is not empty; a NUL would end it. -/
structure ScriptText where
  chars : List Char
  ne_nil : chars ≠ []
  no_nul : ∀ c ∈ chars, c.toNat ≠ 0
  /-- The size of a `QString` is an `int`. -/
  size_lt : (utf16 chars).length < 2 ^ 31

/-- The byte order mark, which `fromUtf8` drops at the beginning. -/
def byteOrderMark : Char := Char.ofNat 0xFEFF

namespace ScriptText

variable (text : ScriptText)

def bytes : Bytes := utf8 text.chars

/-- The characters of the `QString`. -/
def qchars : List Char := if text.chars.head? = some byteOrderMark then text.chars.tail else text.chars

def units : List QChar := utf16 text.qchars

/-- What `insertText` puts in the document. -/
def inserted : List QChar := lineEnds text.units

theorem cString_bytes : cString text.bytes = text.bytes := cString_eq_self (zero_notMem_utf8 text.no_nul)

theorem length_units_le : text.units.length ≤ (utf16 text.chars).length := by
  unfold units qchars
  split_ifs
  · cases text.chars with
    | nil => exact le_rfl
    | cons c chars =>
      rw [List.tail_cons, length_utf16_cons]
      exact Nat.le_add_left _ _
  · exact le_rfl

theorem length_inserted_lt : text.inserted.length < 2 ^ 31 :=
  (length_lineEnds_le text.units).trans_lt (text.length_units_le.trans_lt text.size_lt)

/-- The text goes in as it is, one code unit a character. -/
def Plain : Prop := separator ∉ text.inserted ∧ text.inserted.length = text.chars.length

instance : Decidable text.Plain := inferInstanceAs (Decidable (_ ∧ _))

/-- Of a text without line ends or byte order mark this is said of the single characters. -/
theorem plain_iff (hmark : text.chars.head? ≠ some byteOrderMark) (hends : ∀ c ∈ utf16 text.chars, ¬IsLineEnd c) :
    text.Plain ↔ ∀ ch ∈ text.chars, ch.toNat < 0x10000 := by
  have hinserted : text.inserted = utf16 text.chars := by
    rw [inserted, units, qchars, if_neg hmark]
    exact lineEnds_eq_self hends
  rw [Plain, hinserted, length_utf16_eq_iff]
  exact and_iff_right (separator_notMem hends)

end ScriptText

/-! ### Where the text lands -/

namespace Document

variable {d : Document}

/-- The place of `selectionStart`. -/
def Cursor.landing (c : Cursor d) : Place d :=
  if c.anchor.position ≤ c.position.position then c.anchor else c.position

theorem Cursor.position_landing (c : Cursor d) : c.landing.position = c.selectionStart := by
  unfold landing selectionStart
  split_ifs with h
  · exact (min_eq_left h).symm
  · exact (min_eq_right (by omega)).symm

/-- `insertText` replaces the selection. -/
def insertText (c : Cursor d) (text : List QChar) : Splice QChar :=
  { start := c.selectionStart, stop := c.selectionEnd, text := text }

/-- The text stands where it landed. -/
theorem slice_insertText (c : Cursor d) (text : List QChar) :
    slice ((insertText c text).apply d.plain) c.landing.position (c.landing.position + text.length) = text := by
  have hlength : (d.plain.take c.selectionStart).length = c.selectionStart :=
    List.length_take_of_le (c.selectionStart_le.trans c.selectionEnd_le)
  rw [c.position_landing, slice, Splice.apply, insertText, Nat.add_sub_cancel_left, List.append_assoc]
  simp only [List.drop_append_of_le_length hlength.ge, List.drop_of_length_le hlength.le, List.nil_append, List.take_left]

/-- In one line the place where the text lands is not right of the cursor. -/
theorem Cursor.landing_column_le (c : Cursor d) (h : c.landing.blockNumber = c.position.blockNumber) :
    c.landing.column ≤ c.position.column := by
  have hle : c.landing.position ≤ c.position.position := by
    rw [c.position_landing]
    exact min_le_right _ _
  unfold Place.position at hle
  rw [h] at hle
  omega

/-- What the functions of a script see of an editor that wraps no line. -/
def Cursor.viewIf (c : Cursor d) (visible : Bool) : View := { c.view with visible := visible }

end Document

/-! ### The structure -/

open Document

/-- The column that the editor passes, as a number. -/
theorem toNat_newColumn {v : View} {column : Nat} (hcolumn : v.cursorColumn = column) (hsize : column < 2 ^ 31) :
    (PlainEditor.newColumn v).toNat = if v.visible = true ∧ 1 < column then column + 2 else 0 := by
  have hnn : ¬(column : Int) < 0 := by omega
  unfold PlainEditor.newColumn PlainEditor.columnNumber
  rw [hcolumn, if_neg hnn]
  cases v.visible with
  | false => rfl
  | true =>
    simp only [true_and, if_true]
    split_ifs with hint hnat hnat
    · rw [show (column : Int) + 2 = ((column + 2 : Nat) : Int) by omega, Cursor.ofInt_natCast, UInt32.toNat_ofNat']
      omega
    · omega
    · omega
    · rfl

theorem Document.Place.column_lt {d : Document} (p : Place d) (hsize : d.plain.length < 2 ^ 31) : p.column < 2 ^ 31 := by
  have hle := p.position_le
  unfold Place.position at hle
  omega

theorem toNat_newColumn_viewIf {d : Document} {c : Cursor d} (hsize : d.plain.length < 2 ^ 31) (visible : Bool) :
    (PlainEditor.newColumn (c.viewIf visible)).toNat =
      if visible = true ∧ 1 < c.position.column then c.position.column + 2 else 0 :=
  toNat_newColumn (v := c.viewIf visible) rfl (c.position.column_lt hsize)

/-- The line where the text lands has a field of the type that holds it, at its columns; text that breaks the line has
no column behind it there. -/
def Recorded {d : Document} (type : FieldType) (text : ScriptText) (c : Cursor d) (lm : LineManager) : Prop :=
  ∃ f ∈ lm.fields (UInt32.ofNat c.landing.blockNumber), f.mType = type ∧ f.mInfo = text.bytes ∧
    f.mStart.toNat = c.landing.column ∧ separator ∉ text.inserted ∧ f.mEnd.toNat = c.landing.column + text.inserted.length

/-- The text goes to column 0 of the cursor's line, the editor passes column 0, no field is there, and the text stays in
the line with one code unit a character. -/
structure FitsAtZero {d : Document} (visible : Bool) (text : ScriptText) (c : Cursor d) (lm : LineManager) : Prop where
  line : c.landing.blockNumber = c.position.blockNumber
  column : c.landing.column = 0
  passed : visible = true → c.position.column ≤ 1
  free : ∀ f ∈ lm.fields (UInt32.ofNat c.landing.blockNumber), f.atRange 0 = false
  plain : text.Plain

namespace PlainEditor

/-- `addTitle` and `addName` of the editor differ in the type of the field alone. -/
def addField (type : FieldType) (v : View) (lm : LineManager) (str : Bytes) : Except Failure LineManager :=
  LineManager.addField type lm str (newColumn v) (currentLine v)

section

variable {d : Document} {type : FieldType} {text : ScriptText} {c : Cursor d} {lm : LineManager} {visible : Bool}

theorem ofNat_blockNumber_inj (hsize : d.plain.length < 2 ^ 31) {p q : Place d} :
    UInt32.ofNat p.blockNumber = UInt32.ofNat q.blockNumber ↔ p.blockNumber = q.blockNumber := by
  have hp := p.blockNumber_le
  have hq := q.blockNumber_le
  rw [← UInt32.toNat_inj, UInt32.toNat_ofNat', UInt32.toNat_ofNat']
  omega

/-- The new field holds the text where it landed exactly when both columns are 0 and the widths agree. -/
theorem newString_recorded_iff (type : FieldType) (text : ScriptText) (visible : Bool) (hsize : d.plain.length < 2 ^ 31)
    (hline : c.landing.blockNumber = c.position.blockNumber) {f : Field} (pos : Nat)
    (hf : f = .newString type pos (newColumn (c.viewIf visible)) text.bytes) :
    (f.mStart.toNat = c.landing.column ∧ separator ∉ text.inserted ∧
        f.mEnd.toNat = c.landing.column + text.inserted.length) ↔
      c.landing.column = 0 ∧ (visible = true → c.position.column ≤ 1) ∧ text.Plain := by
  have hleft := c.landing_column_le hline
  have hcolumn := toNat_newColumn_viewIf hsize visible (c := c)
  have hinserted := text.length_inserted_lt
  have hchars : text.chars.length < 2 ^ 31 := (length_le_length_utf16 text.chars).trans_lt text.size_lt
  have hstart : f.mStart = newColumn (c.viewIf visible) := by rw [hf, Field.newString]
  have hend : f.mEnd = newColumn (c.viewIf visible) + UInt32.ofNat text.chars.length := by
    rw [hf, Field.newString, ScriptText.bytes, utf8StringSize_utf8]
  rw [hstart, hend, ScriptText.Plain, UInt32.toNat_add, UInt32.toNat_ofNat', hcolumn]
  by_cases hpassed : visible = true ∧ 1 < c.position.column
  · rw [if_pos hpassed]
    refine iff_of_false (fun h => ?_) fun h => ?_
    · have hsame := h.1
      omega
    · have hle := h.2.1 hpassed.1
      omega
  · rw [if_neg hpassed]
    have hle : visible = true → c.position.column ≤ 1 := fun hv => not_lt.mp fun hlt => hpassed ⟨hv, hlt⟩
    constructor
    · rintro ⟨hzero, hline, hwide⟩
      exact ⟨hzero.symm, hle, hline, by omega⟩
    · rintro ⟨hzero, -, hline, hwide⟩
      exact ⟨hzero.symm, hline, by omega⟩

theorem newColumn_eq_zero (hsize : d.plain.length < 2 ^ 31) (h : visible = true → c.position.column ≤ 1) :
    newColumn (c.viewIf visible) = 0 := by
  rw [← UInt32.toNat_inj, toNat_newColumn_viewIf hsize, if_neg fun hcol => absurd (h hcol.1) (by omega)]
  rfl

/-- A call of `addTitle` or `addName` records the text exactly when the line had such a field already, or
the text goes to a free column 0. -/
theorem recorded_addField_iff (type : FieldType) (visible : Bool) (lm : LineManager) (text : ScriptText) {c : Cursor d}
    (hsize : d.plain.length < 2 ^ 31) :
    ∃ lm', addField type (c.viewIf visible) lm text.bytes = .ok lm' ∧
      (Recorded type text c lm' ↔ Recorded type text c lm ∨ FitsAtZero visible text c lm) := by
  have hcurrent : currentLine (c.viewIf visible) = UInt32.ofNat c.position.blockNumber := Cursor.currentLine_view c
  have hlines := ofNat_blockNumber_inj hsize (p := c.landing) (q := c.position)
  unfold addField
  rw [hcurrent]
  rcases LineManager.addField_cases type lm text.bytes (newColumn (c.viewIf visible))
    (UInt32.ofNat c.position.blockNumber) with ⟨i, g, hfirst, hcall⟩ | ⟨hfree, ptr, hptr, hcall⟩
  · refine ⟨lm, hcall, (or_iff_left fun h => ?_).symm⟩
    rw [newColumn_eq_zero hsize h.passed, ← h.line] at hfirst
    exact hfirst.not_outside h.free
  · refine ⟨_, hcall, ?_⟩
    by_cases hline : c.landing.blockNumber = c.position.blockNumber
    · have hsame : UInt32.ofNat c.landing.blockNumber = UInt32.ofNat c.position.blockNumber := hlines.mpr hline
      have hnew := newString_recorded_iff type text visible hsize hline
        (lm.fields (UInt32.ofNat c.position.blockNumber)).length rfl
      unfold Recorded
      rw [hsame, LineManager.fields_write_self, hptr, text.cString_bytes]
      simp only [List.mem_append, List.mem_singleton, or_and_right, exists_or, exists_eq_left]
      refine or_congr_right ⟨fun ⟨_, _, hcolumns⟩ => ?_, fun h => ⟨rfl, rfl, hnew.mpr ⟨h.column, h.passed, h.plain⟩⟩⟩
      obtain ⟨hzero, hle, hplain⟩ := hnew.mp hcolumns
      rw [newColumn_eq_zero hsize hle, ← hsame] at hfree
      exact ⟨hline, hzero, hle, hfree, hplain⟩
    · have hne : UInt32.ofNat c.position.blockNumber ≠ UInt32.ofNat c.landing.blockNumber :=
        fun h => hline (hlines.mp h.symm)
      unfold Recorded
      rw [LineManager.fields_write_of_ne hne]
      exact (or_iff_left fun h => hline h.line).symm

/-- What a script inserts stands where it landed, and is recorded there exactly when the line had such a field already, or
the text goes to a free column 0. -/
theorem recorded_iff (visible : Bool) (lm : LineManager) (text : ScriptText) {c : Cursor d} (hsize : d.plain.length < 2 ^ 31) :
    slice ((insertText c text.inserted).apply d.plain) c.landing.position (c.landing.position + text.inserted.length) =
        text.inserted ∧
      (∃ lm', addTitle (c.viewIf visible) lm text.bytes = .ok lm' ∧
        (Recorded .title text c lm' ↔ Recorded .title text c lm ∨ FitsAtZero visible text c lm)) ∧
      ∃ lm', addName (c.viewIf visible) lm text.bytes = .ok lm' ∧
        (Recorded .name text c lm' ↔ Recorded .name text c lm ∨ FitsAtZero visible text c lm) :=
  ⟨slice_insertText c text.inserted, recorded_addField_iff .title visible lm text hsize,
    recorded_addField_iff .name visible lm text hsize⟩

end

/-- `T`. -/
def letterT : ScriptText :=
  { chars := ['T'], ne_nil := nofun, no_nul := by simp, size_lt := by decide }

/-- A document with two letters, and the cursor in a column of it. -/
def twoLetters (column : Nat) (h : column ≤ 2) : Cursor [[97, 98]] :=
  { anchor := ⟨0, column, [97, 98], rfl, h⟩, position := ⟨0, column, [97, 98], rfl, h⟩ }

theorem recorded_iff_letter :
    slice ((insertText (twoLetters 0 (by decide)) letterT.inserted).apply (plain [[97, 98]]))
        (twoLetters 0 (by decide)).landing.position
        ((twoLetters 0 (by decide)).landing.position + letterT.inserted.length) = letterT.inserted ∧
      (∃ lm', addTitle ((twoLetters 0 (by decide)).viewIf true) .empty letterT.bytes = .ok lm' ∧
        (Recorded .title letterT (twoLetters 0 (by decide)) lm' ↔
          Recorded .title letterT (twoLetters 0 (by decide)) .empty ∨
            FitsAtZero true letterT (twoLetters 0 (by decide)) .empty)) ∧
      ∃ lm', addName ((twoLetters 0 (by decide)).viewIf true) .empty letterT.bytes = .ok lm' ∧
        (Recorded .name letterT (twoLetters 0 (by decide)) lm' ↔
          Recorded .name letterT (twoLetters 0 (by decide)) .empty ∨
            FitsAtZero true letterT (twoLetters 0 (by decide)) .empty) :=
  recorded_iff true .empty letterT (by decide)

/-- Behind two letters the title is recorded two columns to the right of its text. -/
theorem title_off_by_two :
    ¬∀ (d : Document) (c : Cursor d) (lm lm' : LineManager) (text : ScriptText), d.plain.length < 2 ^ 31 →
      addTitle (c.viewIf true) lm text.bytes = .ok lm' → Recorded .title text c lm' := by
  intro h
  obtain ⟨lm', hcall, hiff⟩ := recorded_addField_iff .title true .empty letterT (c := twoLetters 2 (by decide)) (by decide)
  have hrecorded := h _ (twoLetters 2 (by decide)) .empty lm' letterT (by decide) hcall
  rcases hiff.mp hrecorded with ⟨f, hf, -⟩ | hfits
  · rw [LineManager.fields_empty] at hf
    cases hf
  · exact absurd hfits.column (by decide)

end PlainEditor

end MetaEditor
