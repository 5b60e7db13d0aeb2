import MetaEditor.Lib.Splice
import MetaEditor.Editor.PlainEditor

/-!
# The document beside the structure

The text widget keeps a document of blocks, one a line, and its positions run over the text with a
separator between blocks. This module states what the widget is assumed to do with a key that reaches
it (`widgetEdit`): a character or Enter replaces the selection, Backspace and Delete erase one
character or the selection, Ctrl+V and Ctrl+X replace and delete the selection. The column of its cursor is
counted from the beginning of a visual line: how the lines are wrapped is a `TextLayout`, any function of the
document, and the column is the one in the block while the cursor is in the first visual line of it (`FirstRow`).
-/

namespace MetaEditor

open Lib

/-- `QChar::ParagraphSeparator`. -/
def separator : QChar := 0x2029

/-- The blocks of a `QTextDocument`. -/
abbrev Document := List (List QChar)

namespace Document

/-- The text over which positions run. -/
def plain : Document → List QChar
  | [] => []
  | [block] => block
  | block :: rest => block ++ separator :: plain rest

/-- The position of the first column of a block. -/
def offset (d : Document) (n : Nat) : Nat := ((d.take n).map fun block => block.length + 1).sum

theorem plain_cons_cons (block next : List QChar) (rest : Document) :
    plain (block :: next :: rest) = block ++ separator :: plain (next :: rest) := rfl

theorem offset_succ {d : Document} {n : Nat} {block : List QChar} (h : d[n]? = some block) :
    d.offset (n + 1) = d.offset n + block.length + 1 := by
  rw [offset, List.take_add_one, h]
  simp [offset, Nat.add_assoc]

theorem offset_mono (d : Document) : Monotone d.offset := by
  refine monotone_nat_of_le_succ fun n => ?_
  cases h : d[n]? with
  | none =>
    rw [offset, offset, List.take_add_one, h, Option.toList_none, List.append_nil]
  | some block =>
    rw [offset_succ h]
    omega

/-- A block ends before the next one begins. -/
theorem offset_lt {d : Document} {m n : Nat} {block : List QChar} (h : d[m]? = some block) (hlt : m < n) :
    d.offset m + block.length < d.offset n := by
  have hmono := d.offset_mono (Nat.succ_le_of_lt hlt)
  rw [Nat.succ_eq_add_one, offset_succ h] at hmono
  omega

theorem set_self {d : Document} {n : Nat} {block : List QChar} (h : d[n]? = some block) : d.set n block = d := by
  obtain ⟨hlt, rfl⟩ := List.getElem?_eq_some_iff.mp h
  exact List.set_getElem_self hlt

/-- The text around a block, whatever the block holds. -/
theorem plain_set {d : Document} {n : Nat} {block : List QChar} (h : d[n]? = some block) :
    ∃ before after, before.length = d.offset n ∧
      ∀ block' : List QChar, plain (d.set n block') = before ++ block' ++ after := by
  induction d generalizing n with
  | nil => simp at h
  | cons first rest ih =>
    cases n with
    | zero =>
      cases rest with
      | nil => exact ⟨[], [], rfl, fun block' => by simp [plain]⟩
      | cons next rest =>
        exact ⟨[], separator :: plain (next :: rest), rfl, fun block' => by simp [plain_cons_cons]⟩
    | succ n =>
      obtain ⟨before, after, hlen, hset⟩ := ih (n := n) (by simpa using h)
      refine ⟨first ++ separator :: before, after, ?_, fun block' => ?_⟩
      · simp [hlen, offset]
        omega
      · cases hrest : rest.set n block' with
        | nil =>
          have hnil : rest = [] := by simpa using hrest
          simp [hnil] at h
        | cons next tail => simp [plain_cons_cons, hrest, ← hset]

/-- The text around a block, with the block that is there or with another. -/
theorem plain_around {d : Document} {n : Nat} {block : List QChar} (h : d[n]? = some block) :
    ∃ before after, before.length = d.offset n ∧ d.plain = before ++ block ++ after ∧
      ∀ block' : List QChar, plain (d.set n block') = before ++ block' ++ after := by
  obtain ⟨before, after, hlen, hset⟩ := plain_set h
  have hself := hset block
  rw [set_self h] at hself
  exact ⟨before, after, hlen, hself, hset⟩

theorem plain_eq {d : Document} {n : Nat} {block : List QChar} (h : d[n]? = some block) :
    ∃ before after, before.length = d.offset n ∧ d.plain = before ++ block ++ after := by
  obtain ⟨before, after, hlen, hplain, -⟩ := plain_around h
  exact ⟨before, after, hlen, hplain⟩

theorem offset_add_length_le {d : Document} {n : Nat} {block : List QChar} (h : d[n]? = some block) :
    d.offset n + block.length ≤ d.plain.length := by
  obtain ⟨before, after, hlen, hplain⟩ := plain_eq h
  rw [hplain]
  simp
  omega

/-- An edit inside a block is that edit of the text. -/
theorem plain_set_splice {d : Document} {n a b : Nat} {block : List QChar} (h : d[n]? = some block)
    (ha : a ≤ block.length) (hb : b ≤ block.length) (text : List QChar) :
    (Splice.mk (d.offset n + a) (d.offset n + b) text).apply d.plain =
      plain (d.set n ((Splice.mk a b text).apply block)) := by
  obtain ⟨before, after, hlen, hplain, hset⟩ := plain_around h
  rw [hset, hplain, ← hlen]
  have htake : before.take (before.length + a) = before := List.take_of_length_le (by omega)
  have hdrop : before.drop (before.length + b) = [] := List.drop_eq_nil_of_le (by omega)
  simp [Splice.apply, List.take_append, List.drop_append, Nat.sub_eq_zero_of_le ha, Nat.sub_eq_zero_of_le hb,
    htake, hdrop]

/-- The characters of a block are those of the text at the same place. -/
theorem slice_plain {d : Document} {n a b : Nat} {block : List QChar} (h : d[n]? = some block)
    (ha : a ≤ b) (hb : b ≤ block.length) : slice d.plain (d.offset n + a) (d.offset n + b) = slice block a b := by
  obtain ⟨before, after, hlen, hplain⟩ := plain_eq h
  have hdrop : (before ++ block ++ after).drop (before.length + a) = block.drop a ++ after := by
    rw [List.append_assoc, ← List.drop_drop, List.drop_left, List.drop_append_of_le_length (by omega)]
  rw [hplain, ← hlen, slice, slice, hdrop, Nat.add_sub_add_left,
    List.take_append_of_le_length (by rw [List.length_drop]; omega)]

/-- How the lines are wrapped: the column of a block in which the visual line of a column begins, and the number of
visual lines of a block. -/
structure TextLayout where
  textStart : Document → Nat → Nat → Nat
  rows : Document → Nat → Nat
  textStart_le : ∀ d n column, textStart d n column ≤ column

/-- No line is wrapped. -/
def TextLayout.unwrapped : TextLayout :=
  { textStart := fun _ _ _ => 0, rows := fun _ _ => 1, textStart_le := fun _ _ column => Nat.zero_le column }

theorem le_offset {d : Document} {n : Nat} (h : n ≤ d.length) : n ≤ d.offset n := by
  induction n with
  | zero => exact Nat.zero_le _
  | succ n ih =>
    rw [offset_succ (List.getElem?_eq_getElem (by omega))]
    have := ih (by omega)
    omega

/-- A place in the text: a column of a block that exists. -/
structure Place (d : Document) where
  blockNumber : Nat
  column : Nat
  block : List QChar
  hblock : d[blockNumber]? = some block
  hcolumn : column ≤ block.length

def Place.position {d : Document} (p : Place d) : Nat := d.offset p.blockNumber + p.column

theorem Place.position_le {d : Document} (p : Place d) : p.position ≤ d.plain.length :=
  (Nat.add_le_add_left p.hcolumn _).trans (offset_add_length_le p.hblock)

theorem Place.blockNumber_le {d : Document} (p : Place d) : p.blockNumber ≤ d.plain.length := by
  have hlt := (List.getElem?_eq_some_iff.mp p.hblock).1
  have hoffset := le_offset hlt.le
  have hend := offset_add_length_le p.hblock
  omega

/-- A text cursor: the selection goes from the anchor to the position. -/
structure Cursor (d : Document) where
  anchor : Place d
  position : Place d

namespace Cursor

variable {d : Document}

def selectionStart (c : Cursor d) : Nat := min c.anchor.position c.position.position

def selectionEnd (c : Cursor d) : Nat := max c.anchor.position c.position.position

/-- Nothing is selected. -/
def NoSelection (c : Cursor d) : Prop := c.anchor.position = c.position.position

instance (c : Cursor d) : Decidable c.NoSelection := inferInstanceAs (Decidable (_ = _))

/-- The column of the cursor in its visual line: `QTextCursor::columnNumber`. -/
def columnNumber (layout : TextLayout) (c : Cursor d) : Nat :=
  c.position.column - layout.textStart d c.position.blockNumber c.position.column

/-- The cursor is in the first visual line of its block, the only one when the block is not wrapped. -/
def FirstRow (layout : TextLayout) (c : Cursor d) : Prop :=
  layout.textStart d c.position.blockNumber c.position.column = 0

instance (layout : TextLayout) (c : Cursor d) : Decidable (c.FirstRow layout) := inferInstanceAs (Decidable (_ = _))

/-- What the filter sees of a visible editor. -/
def viewIn (layout : TextLayout) (c : Cursor d) : View :=
  { visible := true
    cursorColumn := c.columnNumber layout
    blockNumber := c.position.blockNumber
    selectionStart := c.selectionStart
    selectionEnd := c.selectionEnd }

/-- What it sees of one that wraps no line. -/
def view (c : Cursor d) : View := c.viewIn .unwrapped

/-- In the first visual line it sees the same. -/
theorem viewIn_of_firstRow {layout : TextLayout} {c : Cursor d} (h : c.FirstRow layout) : c.viewIn layout = c.view := by
  have hcolumn : c.columnNumber layout = c.columnNumber .unwrapped := congrArg (c.position.column - ·) h
  rw [view, viewIn, viewIn, hcolumn]

/-- There is nothing left of column 0. -/
theorem firstRow_of_zero (layout : TextLayout) {c : Cursor d} (h : c.position.column = 0) : c.FirstRow layout :=
  Nat.le_zero.mp ((layout.textStart_le d c.position.blockNumber c.position.column).trans h.le)

theorem selectionStart_le (c : Cursor d) : c.selectionStart ≤ c.selectionEnd := min_le_max

theorem selectionEnd_le (c : Cursor d) : c.selectionEnd ≤ d.plain.length :=
  max_le c.anchor.position_le c.position.position_le

theorem NoSelection.start {c : Cursor d} (h : c.NoSelection) : c.selectionStart = c.position.position := by
  rw [selectionStart, h, min_self]

theorem NoSelection.stop {c : Cursor d} (h : c.NoSelection) : c.selectionEnd = c.position.position := by
  rw [selectionEnd, h, max_self]

theorem columnNumber_viewIn (layout : TextLayout) (c : Cursor d) :
    PlainEditor.columnNumber (c.viewIn layout) = c.columnNumber layout := by
  have hnn : ¬(c.columnNumber layout : Int) < 0 := by omega
  show (if (c.columnNumber layout : Int) < 0 then (0 : Int) else c.columnNumber layout) = c.columnNumber layout
  rw [if_neg hnn]

theorem ofInt_natCast (n : Nat) : UInt32.ofInt n = UInt32.ofNat n := by
  rw [← UInt32.toNat_inj, UInt32.ofInt, UInt32.toNat_ofNat', UInt32.toNat_ofNat']
  omega

theorem column_viewIn (layout : TextLayout) (c : Cursor d) :
    PlainEditor.column (c.viewIn layout) = UInt32.ofNat (c.columnNumber layout) := by
  rw [PlainEditor.column, columnNumber_viewIn, ofInt_natCast]

theorem nextColumn_viewIn (layout : TextLayout) (c : Cursor d) :
    PlainEditor.nextColumn (c.viewIn layout) = UInt32.ofNat (c.columnNumber layout + 1) := by
  rw [PlainEditor.nextColumn, columnNumber_viewIn]
  exact ofInt_natCast (c.columnNumber layout + 1)

theorem currentLine_viewIn (layout : TextLayout) (c : Cursor d) :
    PlainEditor.currentLine (c.viewIn layout) = UInt32.ofNat c.position.blockNumber :=
  ofInt_natCast _

theorem column_view (c : Cursor d) : PlainEditor.column c.view = UInt32.ofNat c.position.column :=
  c.column_viewIn .unwrapped

theorem nextColumn_view (c : Cursor d) : PlainEditor.nextColumn c.view = UInt32.ofNat (c.position.column + 1) :=
  c.nextColumn_viewIn .unwrapped

theorem currentLine_view (c : Cursor d) : PlainEditor.currentLine c.view = UInt32.ofNat c.position.blockNumber :=
  c.currentLine_viewIn .unwrapped

end Cursor

/-! ### What the widget does with a key -/

/-- `Qt::Key_V` and `Qt::Key_X`. -/
def keyV : Nat := 0x56
def keyX : Nat := 0x58

/-- A key that edits nothing. -/
def noEdit : Splice QChar := { start := 0, stop := 0, text := [] }

def widgetEdit (d : Document) (c : Cursor d) (clipboard : List QChar) (keyEvent : KeyEvent) : Splice QChar :=
  let start := c.selectionStart
  let stop := c.selectionEnd
  match keyEvent.key with
  | .enter | .return => { start, stop, text := [separator] }
  | .backspace => if start = stop then { start := start - 1, stop, text := [] } else { start, stop, text := [] }
  | .delete =>
    if start = stop then { start, stop := min (stop + 1) d.plain.length, text := [] } else { start, stop, text := [] }
  | .other code =>
    if keyEvent.controlModifier then
      if code = keyV then { start, stop, text := clipboard }
      else if code = keyX then { start, stop, text := [] }
      else noEdit
    else if keyEvent.text = [] then noEdit
    else { start, stop, text := keyEvent.text }
  | .capsLock | .left | .down | .right | .up | .escape | .f1 | .f2 | .f3 => noEdit

/-- The edit is inside the text. -/
theorem widgetEdit_bounds (d : Document) (c : Cursor d) (clipboard : List QChar) (keyEvent : KeyEvent) :
    (d.widgetEdit c clipboard keyEvent).start ≤ (d.widgetEdit c clipboard keyEvent).stop ∧
      (d.widgetEdit c clipboard keyEvent).stop ≤ d.plain.length := by
  have hle := c.selectionStart_le
  have hend := c.selectionEnd_le
  unfold widgetEdit
  cases keyEvent.key <;> dsimp only [noEdit] <;> (try (split_ifs <;> dsimp only)) <;> omega

end Document

/-! ### Fields and the document -/

/-- No two fields of a line have a column in common, the last columns included. -/
def Apart (fields : List Field) : Prop :=
  fields.Pairwise fun f g => f.mEnd < g.mStart ∨ g.mEnd < f.mStart

instance (fields : List Field) : Decidable (Apart fields) := inferInstanceAs (Decidable (List.Pairwise _ _))

theorem Apart.of_ne {fields : List Field} (h : Apart fields) {i j : Nat} {f g : Field} (hne : i ≠ j)
    (hf : fields[i]? = some f) (hg : fields[j]? = some g) : f.mEnd < g.mStart ∨ g.mEnd < f.mStart := by
  obtain ⟨hi, rfl⟩ := List.getElem?_eq_some_iff.mp hf
  obtain ⟨hj, rfl⟩ := List.getElem?_eq_some_iff.mp hg
  rcases Nat.lt_or_gt_of_ne hne with hlt | hlt
  · exact List.pairwise_iff_getElem.mp h i j hi hj hlt
  · exact (List.pairwise_iff_getElem.mp h j i hj hi hlt).symm

/-- A column is in the range of at most one field. -/
theorem Apart.index_unique {fields : List Field} (h : Apart fields) {i j : Nat} {f g : Field} {col : UInt32}
    (hf : fields[i]? = some f) (hg : fields[j]? = some g) (hcf : f.atRange col = true)
    (hcg : g.atRange col = true) : i = j := by
  by_contra hne
  simp only [Field.atRange_eq_true, UInt32.le_iff_toNat_le] at hcf hcg
  have hbeside := h.of_ne hne hf hg
  simp only [UInt32.lt_iff_toNat_lt] at hbeside
  omega

theorem Apart.firstAt {fields : List Field} (h : Apart fields) {i : Nat} {f : Field} {col : UInt32}
    (hf : fields[i]? = some f) (hin : f.atRange col = true) : FirstAt fields col i f :=
  firstAt_of_unique hf hin fun _ _ hg hgin => h.index_unique hg hf hgin hin

end MetaEditor
