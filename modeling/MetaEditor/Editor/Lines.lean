import MetaEditor.Editor.Sheet

/-!
# Moving to a line

`moveToLine` and `moveToNextLine` make the lines that are missing by inserting blocks at the cursor, and go to
the first column of the line. A block takes the place of the selection, so that with line breaks in the
selection there are fewer lines afterwards than were counted on: then the block that is looked up is not valid.
`moveToNextLine` goes by the numbers of blocks, `moveToLine` by visual lines: it counts the blocks that it makes as
if each were one visual line more.
-/

namespace MetaEditor

open Lib Document

namespace Document.TextLayout

variable (layout : TextLayout) (d : Document)

/-- The visual lines of the first blocks. -/
def linesBefore (n : Nat) : Nat := ((List.range n).map (layout.rows d)).sum

/-- `QTextDocument::lineCount`. -/
def lineCount : Nat := layout.linesBefore d d.length

/-- `QTextDocument::findBlockByLineNumber`: the block that has a visual line. -/
def findBlockByLineNumber (lineNumber : Nat) : Option Nat :=
  (List.range d.length).find? fun n => lineNumber < layout.linesBefore d (n + 1)

/-- Each block is one visual line. -/
def OneRow : Prop := ∀ n < d.length, layout.rows d n = 1

variable {layout d}

theorem linesBefore_succ (n : Nat) : layout.linesBefore d (n + 1) = layout.linesBefore d n + layout.rows d n := by
  rw [linesBefore, List.range_succ, List.map_append, List.sum_append, List.map_singleton, List.sum_singleton]
  rfl

theorem linesBefore_mono : Monotone (layout.linesBefore d) :=
  monotone_nat_of_le_succ fun n => (Nat.le_add_right _ _).trans (linesBefore_succ n).ge

/-- The visual lines of a block are those from the sum of the blocks before it on. -/
theorem findBlockByLineNumber_eq_some {lineNumber n : Nat} : layout.findBlockByLineNumber d lineNumber = some n ↔
    n < d.length ∧ layout.linesBefore d n ≤ lineNumber ∧ lineNumber < layout.linesBefore d (n + 1) := by
  unfold findBlockByLineNumber
  rw [List.find?_range_eq_some]
  simp only [decide_eq_true_eq, List.mem_range, Bool.not_eq_eq_eq_not, Bool.not_true, decide_eq_false_iff_not, not_lt]
  constructor
  · rintro ⟨hin, hn, hfirst⟩
    refine ⟨hn, ?_, hin⟩
    cases n with
    | zero => exact Nat.zero_le _
    | succ n => exact hfirst n (Nat.lt_succ_self n)
  · rintro ⟨hn, hlow, hin⟩
    exact ⟨hin, hn, fun j hj => (linesBefore_mono hj).trans hlow⟩

/-- Behind the last visual line there is no block. -/
theorem findBlockByLineNumber_eq_none {lineNumber : Nat} :
    layout.findBlockByLineNumber d lineNumber = none ↔ layout.lineCount d ≤ lineNumber := by
  unfold findBlockByLineNumber lineCount
  rw [List.find?_eq_none]
  simp only [List.mem_range, decide_eq_true_eq, not_lt]
  constructor
  · intro h
    cases hlength : d.length with
    | zero => exact Nat.zero_le _
    | succ n => exact h n (by omega)
  · exact fun h n hn => (linesBefore_mono (Nat.succ_le_of_lt hn)).trans h

/-- Where no line is wrapped the number of a visual line is that of its block. -/
theorem OneRow.linesBefore (h : layout.OneRow d) {n : Nat} (hn : n ≤ d.length) : layout.linesBefore d n = n := by
  induction n with
  | zero => rfl
  | succ n ih => rw [linesBefore_succ, ih (by omega), h n hn]

theorem OneRow.lineCount (h : layout.OneRow d) : layout.lineCount d = d.length := h.linesBefore le_rfl

theorem OneRow.findBlockByLineNumber (h : layout.OneRow d) {n m : Nat}
    (hfind : layout.findBlockByLineNumber d n = some m) : m = n := by
  obtain ⟨hlt, hlow, hin⟩ := findBlockByLineNumber_eq_some.mp hfind
  rw [h.linesBefore hlt.le] at hlow
  rw [h.linesBefore hlt] at hin
  omega

end Document.TextLayout

namespace Sheet

/-- The text before the selection, the selection, and the text behind it. -/
def start (s : Sheet) : Nat := min s.anchor s.position
def stop (s : Sheet) : Nat := max s.anchor s.position

def selected (s : Sheet) : List QChar := slice s.text s.start s.stop

theorem start_le_stop (s : Sheet) : s.start ≤ s.stop := min_le_max

theorem stop_le (s : Sheet) : s.stop ≤ s.text.length := max_le s.hanchor s.hposition

@[simp] theorem selectionStart_cursor (s : Sheet) : s.cursor.selectionStart = s.start := by
  rw [Cursor.selectionStart, position_anchor_cursor, position_position_cursor, start]

@[simp] theorem selectionEnd_cursor (s : Sheet) : s.cursor.selectionEnd = s.stop := by
  rw [Cursor.selectionEnd, position_anchor_cursor, position_position_cursor, stop]

theorem text_split (s : Sheet) : s.text = s.text.take s.start ++ s.selected ++ s.text.drop s.stop := by
  have hstop : s.text.drop s.stop = (s.text.drop s.start).drop (s.stop - s.start) := by
    rw [List.drop_drop, Nat.add_sub_cancel' s.start_le_stop]
  rw [selected, slice, hstop, List.append_assoc, List.take_append_drop, List.take_append_drop]

/-- Replace the selection, once. -/
theorem insertText_spec (s : Sheet) (text : List QChar) :
    (s.edit (Document.insertText s.cursor text)).text = s.text.take s.start ++ text ++ s.text.drop s.stop ∧
      (s.edit (Document.insertText s.cursor text)).start = s.start + text.length ∧
      (s.edit (Document.insertText s.cursor text)).stop = s.start + text.length := by
  have hstart : s.start ≤ s.text.length := s.start_le_stop.trans s.stop_le
  have hcursor : (s.text.take s.start ++ text).length = s.start + text.length := by
    rw [List.length_append, List.length_take_of_le hstart]
  refine ⟨?_, ?_, ?_⟩
  · rw [text_edit, Document.insertText, Splice.apply, selectionStart_cursor, selectionEnd_cursor]
  · rw [start, edit, Document.insertText, selectionStart_cursor]
    simp only [hcursor, min_self]
  · rw [stop, edit, Document.insertText, selectionStart_cursor]
    simp only [hcursor, max_self]

/-! ### The functions -/

/-- A cursor at the first column of a block, if it is valid. -/
def place (n : Nat) (s : Sheet) : Option Sheet :=
  if n < s.document.length then some (s.select (s.document.offset n) (s.document.offset n)) else none

/-- For a line number below `2 ^ 31`, as the window asks for: `findBlockByLineNumber` takes an `int`. -/
def moveToLine (lineNumber : Nat) (s : Sheet) : Option Sheet :=
  match s.layout.findBlockByLineNumber s.document lineNumber with
  | some n => s.place n
  | none =>
    let s := insertBlock^[lineNumber + 1 - s.layout.lineCount s.document] s
    (s.layout.findBlockByLineNumber s.document lineNumber).bind fun n => s.place n

def moveToNextLine (s : Sheet) : Option Sheet :=
  let nextLine := s.cursor.position.blockNumber + 1
  if nextLine < s.document.length then s.place nextLine else s.insertBlock.place nextLine

/-! ### Inserting blocks -/

/-- The text when line breaks have taken the place of the selection. -/
def broken (made : Nat) (s : Sheet) : List QChar :=
  s.text.take s.start ++ List.replicate made separator ++ s.text.drop s.stop

/-- The blocks come one behind the other: the first one takes the place of the selection. -/
theorem insertBlock_iterate (k : Nat) (s : Sheet) :
    (insertBlock^[k + 1] s).text = s.broken (k + 1) ∧
      (insertBlock^[k + 1] s).dataman = s.dataman ∧ (insertBlock^[k + 1] s).visible = s.visible ∧
      (insertBlock^[k + 1] s).layout = s.layout := by
  induction k generalizing s with
  | zero => exact ⟨(s.insertText_spec [separator]).1, rfl, rfl, rfl⟩
  | succ k ih =>
    obtain ⟨htext, hstart, hstop⟩ := s.insertText_spec [separator]
    obtain ⟨hnext, hkept⟩ := ih s.insertBlock
    have hlength : (s.text.take s.start ++ [separator]).length = s.start + [separator].length := by
      rw [List.length_append, List.length_take_of_le (s.start_le_stop.trans s.stop_le)]
    refine ⟨?_, hkept⟩
    rw [Function.iterate_succ_apply, hnext, broken, broken]
    rw [insertBlock, hstart, hstop, htext, ← hlength, List.take_left, List.drop_left, List.append_assoc _ [separator],
      List.singleton_append, ← List.replicate_succ]

/-- The lines that there are when the selection has been replaced by `k` line breaks. -/
theorem length_ofText_replaced (s : Sheet) (k : Nat) :
    (ofText (s.broken k)).length + s.selected.count separator = s.document.length + k := by
  have hsplit := congrArg (List.count separator) s.text_split
  rw [List.count_append, List.count_append] at hsplit
  rw [document, length_ofText, length_ofText, broken, hsplit, List.count_append, List.count_append,
    List.count_replicate_self]
  omega

theorem place_iff {s s' : Sheet} {n : Nat} :
    s.place n = some s' ↔ n < s.document.length ∧ s' = s.select (s.document.offset n) (s.document.offset n) := by
  unfold place
  split_ifs with h
  · rw [Option.some.injEq, and_iff_right h, eq_comm]
  · exact iff_of_false nofun fun hn => h hn.1

/-- Where the cursor is when it has been placed. -/
theorem cursor_select_offset {s : Sheet} {n : Nat} (h : n < s.document.length) :
    let c := (s.select (s.document.offset n) (s.document.offset n)).cursor
    c.position.blockNumber = n ∧ c.position.column = 0 ∧ c.NoSelection := by
  intro c
  have hle : s.document.offset n ≤ s.text.length := by
    have hend := offset_add_length_le (List.getElem?_eq_getElem h)
    rw [plain_document] at hend
    omega
  let p : Place s.document :=
    { blockNumber := n, column := 0, block := s.document[n], hblock := List.getElem?_eq_getElem h, hcolumn := Nat.zero_le _ }
  have hposition : c.position.position = p.position := by
    rw [position_position_cursor]
    exact min_eq_left hle
  obtain ⟨hblock, hcolumn, -⟩ := Place.eq_of_position hposition
  refine ⟨hblock, hcolumn, ?_⟩
  rw [Cursor.NoSelection, position_anchor_cursor, position_position_cursor]
  rfl

/-- The editor at the first column of a line, after `made` line breaks have taken the place of the selection,
if any had to be made. -/
structure AtLine (s : Sheet) (n made : Nat) (s' : Sheet) : Prop where
  blockNumber : s'.cursor.position.blockNumber = n
  column : s'.cursor.position.column = 0
  noSelection : s'.cursor.NoSelection
  text : s'.text = if made = 0 then s.text else s.broken made
  dataman : s'.dataman = s.dataman
  visible : s'.visible = s.visible
  layout : s'.layout = s.layout

theorem AtLine.of_place {s : Sheet} {n : Nat} (h : n < s.document.length) :
    AtLine s n 0 (s.select (s.document.offset n) (s.document.offset n)) := by
  obtain ⟨hblock, hcolumn, hnone⟩ := cursor_select_offset h
  exact ⟨hblock, hcolumn, hnone, rfl, rfl, rfl, rfl⟩

/-- A place behind `k + 1` new blocks. -/
theorem AtLine.of_place_insertBlock {s s' : Sheet} {n k : Nat} (h : (insertBlock^[k + 1] s).place n = some s') :
    AtLine s n (k + 1) s' := by
  obtain ⟨htext, hdataman, hvisible, hlayout⟩ := insertBlock_iterate k s
  obtain ⟨hn, rfl⟩ := place_iff.mp h
  have hat := AtLine.of_place hn
  exact { hat with
    text := hat.text.trans (htext.trans (if_neg (Nat.succ_ne_zero k)).symm)
    dataman := hdataman
    visible := hvisible
    layout := hlayout }

/-! ### Where the moves end -/

/-- The next block is made when the cursor is in the last one, and is not there if the selection had a line break. -/
theorem place_insertBlock_ne_none {s : Sheet} {n : Nat} :
    s.insertBlock.place n ≠ none ↔ n + s.selected.count separator < s.document.length + 1 := by
  have hlength : s.insertBlock.document.length + s.selected.count separator = s.document.length + 1 := by
    rw [document, insertBlock, (s.insertText_spec [separator]).1]
    exact s.length_ofText_replaced 1
  rw [Option.ne_none_iff_exists']
  simp only [place_iff, exists_and_left, exists_eq, and_true]
  omega

/-- The visual line is there, or blocks are made and it is looked up once more. -/
theorem moveToLine_cases (s : Sheet) (n : Nat) :
    (n < s.layout.lineCount s.document ∧ ∃ m, s.layout.findBlockByLineNumber s.document n = some m ∧
      s.moveToLine n = s.place m) ∨
    ∃ k, n + 1 = s.layout.lineCount s.document + (k + 1) ∧
      s.moveToLine n = (s.layout.findBlockByLineNumber (ofText (s.broken (k + 1))) n).bind (insertBlock^[k + 1] s).place := by
  unfold moveToLine
  cases hfind : s.layout.findBlockByLineNumber s.document n with
  | some m =>
    have hlt : ¬s.layout.lineCount s.document ≤ n := by
      rw [← TextLayout.findBlockByLineNumber_eq_none, hfind]
      exact Option.some_ne_none m
    exact .inl ⟨not_le.mp hlt, m, rfl, rfl⟩
  | none =>
    obtain ⟨k, hk⟩ := Nat.exists_eq_add_of_le (TextLayout.findBlockByLineNumber_eq_none.mp hfind)
    have hmade : n + 1 - s.layout.lineCount s.document = k + 1 := by omega
    obtain ⟨htext, -, -, hlayout⟩ := insertBlock_iterate k s
    refine .inr ⟨k, by omega, ?_⟩
    show Option.bind (TextLayout.findBlockByLineNumber (insertBlock^[n + 1 - s.layout.lineCount s.document] s).layout
      (insertBlock^[n + 1 - s.layout.lineCount s.document] s).document n)
      (fun m => (insertBlock^[n + 1 - s.layout.lineCount s.document] s).place m) = _
    rw [hmade, hlayout, document, htext]

/-- The block that has the visual line then, or none. -/
theorem moveToLine_spec (s : Sheet) (n : Nat) :
    let made := n + 1 - s.layout.lineCount s.document
    (∀ s', s.moveToLine n = some s' →
      ∃ m, s.layout.findBlockByLineNumber s'.document n = some m ∧ AtLine s m made s') ∧
    (s.moveToLine n = none ↔ s.layout.lineCount s.document ≤ n ∧ s.layout.lineCount (ofText (s.broken made)) ≤ n) := by
  intro made
  rcases s.moveToLine_cases n with ⟨hlt, m, hfind, hmove⟩ | ⟨k, hk, hmove⟩
  · have hm : m < s.document.length := (TextLayout.findBlockByLineNumber_eq_some.mp hfind).1
    have hplace : s.place m = some (s.select (s.document.offset m) (s.document.offset m)) := place_iff.mpr ⟨hm, rfl⟩
    rw [hmove, hplace]
    refine ⟨fun s' hs' => ⟨m, ?_, ?_⟩, iff_of_false (Option.some_ne_none _) fun h => absurd h.1 (by omega)⟩
    · rw [← Option.some.inj hs']
      exact hfind
    · rw [← Option.some.inj hs', show made = 0 by omega]
      exact .of_place hm
  · have hmade : made = k + 1 := by omega
    have hdocument : (insertBlock^[k + 1] s).document = ofText (s.broken (k + 1)) :=
      congrArg ofText (insertBlock_iterate k s).1
    rw [hmove, hmade]
    refine ⟨fun s' hs' => ?_, ?_⟩
    · obtain ⟨m, hfind, hplace⟩ := Option.bind_eq_some_iff.mp hs'
      have hat := AtLine.of_place_insertBlock hplace
      refine ⟨m, ?_, hat⟩
      rwa [document, hat.text, if_neg (Nat.succ_ne_zero k)]
    · rw [and_iff_right (show s.layout.lineCount s.document ≤ n by omega), ← TextLayout.findBlockByLineNumber_eq_none]
      cases hfind : s.layout.findBlockByLineNumber (ofText (s.broken (k + 1))) n with
      | none => exact iff_of_true rfl rfl
      | some m =>
        have hm := (TextLayout.findBlockByLineNumber_eq_some.mp hfind).1
        rw [← hdocument] at hm
        rw [Option.bind_some, place, if_pos hm]
        exact iff_of_false (Option.some_ne_none _) (Option.some_ne_none _)

/-- Where no line is wrapped that is the block of the number. -/
theorem moveToLine_unwrapped {s : Sheet} {n : Nat} (hbefore : s.layout.OneRow s.document)
    (hafter : s.layout.OneRow (ofText (s.broken (n + 1 - s.layout.lineCount s.document)))) :
    (∀ s', s.moveToLine n = some s' →
      AtLine s n (n + 1 - s.document.length) s' ∧ s'.document.length = max s.document.length (n + 1)) ∧
    (s.moveToLine n = none ↔ s.document.length ≤ n ∧ separator ∈ s.selected) := by
  have hreplaced := s.length_ofText_replaced (n + 1 - s.document.length)
  have hselected : separator ∈ s.selected ↔ s.selected.count separator ≠ 0 := by
    rw [Ne, List.count_eq_zero, not_not]
  obtain ⟨hreaches, hfails⟩ := s.moveToLine_spec n
  rw [hafter.lineCount, hbefore.lineCount] at hfails
  rw [hbefore.lineCount] at hreaches hafter
  refine ⟨fun s' hs' => ?_, ?_⟩
  · obtain ⟨m, hfind, hat⟩ := hreaches s' hs'
    obtain ⟨hm, -, -⟩ := TextLayout.findBlockByLineNumber_eq_some.mp hfind
    have htext := hat.text
    split_ifs at htext with hmade
    · have hdocument : s'.document = s.document := congrArg ofText htext
      rw [hdocument] at hfind hm ⊢
      obtain rfl := hbefore.findBlockByLineNumber hfind
      exact ⟨hat, by omega⟩
    · have hdocument : s'.document = ofText (s.broken (n + 1 - s.document.length)) := congrArg ofText htext
      rw [hdocument] at hfind hm ⊢
      obtain rfl := hafter.findBlockByLineNumber hfind
      exact ⟨hat, by omega⟩
  · rw [hfails, hselected]
    omega

/-- `moveToLine` makes as many blocks as visual lines are missing and goes to the block that has the line then. It fails
exactly when the line is still missing. Where no line is wrapped, before and afterwards, the block is the one of that
number, and it fails exactly when lines had to be made and the selection that they replaced had a line break. -/
theorem moveToLine_reaches (s : Sheet) (n : Nat) :
    let made := n + 1 - s.layout.lineCount s.document
    (∀ s', s.moveToLine n = some s' →
      ∃ m, s.layout.findBlockByLineNumber s'.document n = some m ∧ AtLine s m made s') ∧
    (s.moveToLine n = none ↔ s.layout.lineCount s.document ≤ n ∧ s.layout.lineCount (ofText (s.broken made)) ≤ n) ∧
    (s.layout.OneRow s.document → s.layout.OneRow (ofText (s.broken made)) →
      (∀ s', s.moveToLine n = some s' →
        AtLine s n (n + 1 - s.document.length) s' ∧ s'.document.length = max s.document.length (n + 1)) ∧
      (s.moveToLine n = none ↔ s.document.length ≤ n ∧ separator ∈ s.selected)) := by
  obtain ⟨hreaches, hfails⟩ := s.moveToLine_spec n
  exact ⟨hreaches, hfails, moveToLine_unwrapped⟩

/-- `moveToNextLine` goes to the next line, and makes it when the cursor is in the last one. It fails exactly
when it had to be made and the selection that it replaced had a line break. -/
theorem moveToNextLine_reaches (s : Sheet) :
    let n := s.cursor.position.blockNumber + 1
    (∀ s', s.moveToNextLine = some s' → AtLine s n (n + 1 - s.document.length) s') ∧
      (s.moveToNextLine = none ↔ n = s.document.length ∧ separator ∈ s.selected) := by
  intro n
  have hlast : n ≤ s.document.length := Nat.succ_le_of_lt (List.getElem?_eq_some_iff.mp s.cursor.position.hblock).1
  have hselected : separator ∈ s.selected ↔ s.selected.count separator ≠ 0 := by
    rw [Ne, List.count_eq_zero, not_not]
  unfold moveToNextLine
  simp only
  split_ifs with hnext
  · refine ⟨fun s' hs' => ?_, iff_of_false (fun hnone => ?_) fun h => absurd h.1 hnext.ne⟩
    · obtain ⟨-, rfl⟩ := place_iff.mp hs'
      rw [Nat.sub_eq_zero_of_le (Nat.succ_le_of_lt hnext)]
      exact .of_place hnext
    · rw [place, if_pos hnext] at hnone
      cases hnone
  · have hend : n = s.document.length := le_antisymm hlast (not_lt.mp hnext)
    refine ⟨fun s' hs' => ?_, ?_⟩
    · rw [show n + 1 - s.document.length = 0 + 1 by omega]
      exact .of_place_insertBlock (k := 0) hs'
    · rw [hselected, ← not_ne_iff, place_insertBlock_ne_none]
      omega

end Sheet

end MetaEditor
