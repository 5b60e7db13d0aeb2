import MetaEditor.Editor.Insertion
import MetaEditor.Editor.LineBreaks

/-!
# The whole editor

A `Sheet` is an editor with its text: the text of the document, the cursor in it, and the structure. The
lines are what the separators leave (`ofText`), and every edit of the widget is a splice of the text that
leaves the cursor behind what it inserted. The copies of the cursor that the editor makes with
`textCursor()` edit the same text, and the editor's own cursor follows them. How the lines are wrapped is part of the
editor, since it changes when the editor is resized.

In `handle` the editor's `eventFilter` sees its events before the widget does, as it is meant to. The window installs
itself in its place (`Ui/Desk`).
-/

namespace MetaEditor

open Lib

namespace Document

/-! ### The lines of a text -/

def ofText (text : List QChar) : Document := text.splitOn separator

theorem plain_eq_intercalate (d : Document) : d.plain = [separator].intercalate d := by
  induction d with
  | nil => rfl
  | cons block rest ih =>
    cases rest with
    | nil => simp [plain]
    | cons next rest => rw [plain_cons_cons, ih, List.intercalate_cons_cons]; simp

@[simp] theorem plain_ofText (text : List QChar) : (ofText text).plain = text := by
  rw [plain_eq_intercalate, ofText, List.intercalate_splitOn]

theorem ofText_ne_nil (text : List QChar) : ofText text ≠ [] := List.splitOn_ne_nil _ _

/-- No block has a separator in it. -/
def Clean (d : Document) : Prop := ∀ block ∈ d, separator ∉ block

theorem ofText_plain {d : Document} (hne : d ≠ []) (hclean : d.Clean) : ofText d.plain = d := by
  rw [plain_eq_intercalate, ofText, List.splitOn_intercalate separator hclean hne]

theorem ofText_cons_separator (text : List QChar) : ofText (separator :: text) = [] :: ofText text := by
  rw [ofText, List.splitOn_cons_eq_if_modifyHead, if_pos (beq_self_eq_true separator)]
  rfl

theorem ofText_cons_of_ne {c : QChar} (h : c ≠ separator) (text : List QChar) :
    ofText (c :: text) = (ofText text).modifyHead (c :: ·) := by
  rw [ofText, List.splitOn_cons_eq_if_modifyHead, if_neg (by simpa using h)]
  rfl

theorem clean_ofText (text : List QChar) : (ofText text).Clean := by
  induction text with
  | nil =>
    intro block hblock
    rw [ofText, List.splitOn_nil] at hblock
    rw [List.mem_singleton.mp hblock]
    exact List.not_mem_nil
  | cons c text ih =>
    by_cases hc : c = separator
    · rw [hc, ofText_cons_separator]
      exact List.forall_mem_cons.mpr ⟨List.not_mem_nil, ih⟩
    · rw [ofText_cons_of_ne hc]
      cases hlines : ofText text with
      | nil => exact absurd hlines (ofText_ne_nil text)
      | cons first rest =>
        rw [hlines] at ih
        obtain ⟨hfirst, hrest⟩ := List.forall_mem_cons.mp ih
        refine List.forall_mem_cons.mpr ⟨fun hmem => ?_, hrest⟩
        rcases List.mem_cons.mp hmem with heq | hmem
        · exact hc heq.symm
        · exact hfirst hmem

/-- There is one line more than separators. -/
theorem length_ofText (text : List QChar) : (ofText text).length = text.count separator + 1 := by
  induction text with
  | nil => rfl
  | cons c text ih =>
    by_cases hc : c = separator
    · rw [hc, ofText_cons_separator, List.length_cons, ih, List.count_cons_self]
    · rw [ofText_cons_of_ne hc, List.length_modifyHead, ih, List.count_cons_of_ne hc]

/-! ### The place of a position -/

/-- The place of a position, in a document that has a block. -/
def placeAt : (d : Document) → d ≠ [] → (position : Nat) → position ≤ d.plain.length → Place d
  | [block], _, position, h => { blockNumber := 0, column := position, block, hblock := rfl, hcolumn := h }
  | block :: next :: rest, _, position, h =>
    if hcolumn : position ≤ block.length then { blockNumber := 0, column := position, block, hblock := rfl, hcolumn }
    else
      let p := placeAt (next :: rest) (List.cons_ne_nil _ _) (position - (block.length + 1)) (by
        rw [plain_cons_cons, List.length_append, List.length_cons] at h
        omega)
      { blockNumber := p.blockNumber + 1, column := p.column, block := p.block, hblock := p.hblock, hcolumn := p.hcolumn }

theorem offset_cons_succ (block : List QChar) (d : Document) (n : Nat) :
    offset (block :: d) (n + 1) = block.length + 1 + d.offset n := by
  simp [offset]

@[simp] theorem position_placeAt (d : Document) (hne : d ≠ []) (position : Nat) (h : position ≤ d.plain.length) :
    (placeAt d hne position h).position = position := by
  induction d generalizing position with
  | nil => exact absurd rfl hne
  | cons block rest ih =>
    cases rest with
    | nil => exact Nat.zero_add position
    | cons next rest =>
      rw [placeAt]
      split_ifs with hcolumn
      · exact Nat.zero_add position
      · have hlength : position ≤ block.length + 1 + (plain (next :: rest)).length := by
          rw [plain_cons_cons, List.length_append, List.length_cons] at h
          omega
        have hplace := ih (List.cons_ne_nil _ _) (position - (block.length + 1)) (by omega)
        unfold Place.position at hplace ⊢
        rw [offset_cons_succ, Nat.add_assoc, hplace]
        omega

/-- A place is known by its position. -/
theorem Place.eq_of_position {d : Document} {p q : Place d} (h : p.position = q.position) :
    p.blockNumber = q.blockNumber ∧ p.column = q.column ∧ p.block = q.block := by
  have hblock : p.blockNumber = q.blockNumber := by
    unfold Place.position at h
    rcases Nat.lt_trichotomy p.blockNumber q.blockNumber with hlt | heq | hlt
    · have hbefore := offset_lt p.hblock hlt
      have hin := p.hcolumn
      omega
    · exact heq
    · have hbefore := offset_lt q.hblock hlt
      have hin := q.hcolumn
      omega
  have hsame := p.hblock.symm.trans ((congrArg (d[·]?) hblock).trans q.hblock)
  unfold Place.position at h
  rw [hblock] at h
  exact ⟨hblock, by omega, Option.some.inj hsame⟩

end Document

open Document

/-- The editor: the text of its document, the cursor with its anchor, the structure, whether it is visible and how it
wraps the lines. -/
structure Sheet where
  text : List QChar
  anchor : Nat
  position : Nat
  dataman : LineManager
  visible : Bool
  layout : TextLayout
  hanchor : anchor ≤ text.length
  hposition : position ≤ text.length

namespace Sheet

/-- An editor when it has been made. -/
def fresh (visible : Bool) (layout : TextLayout) : Sheet :=
  { text := [], anchor := 0, position := 0, dataman := .empty, visible, layout, hanchor := Nat.le_refl _,
    hposition := Nat.le_refl _ }

def document (s : Sheet) : Document := ofText s.text

@[simp] theorem plain_document (s : Sheet) : s.document.plain = s.text := plain_ofText s.text

def cursor (s : Sheet) : Cursor s.document where
  anchor := placeAt s.document (ofText_ne_nil _) s.anchor (by rw [plain_document]; exact s.hanchor)
  position := placeAt s.document (ofText_ne_nil _) s.position (by rw [plain_document]; exact s.hposition)

@[simp] theorem position_anchor_cursor (s : Sheet) : s.cursor.anchor.position = s.anchor := position_placeAt _ _ _ _

@[simp] theorem position_position_cursor (s : Sheet) : s.cursor.position.position = s.position := position_placeAt _ _ _ _

def view (s : Sheet) : View := { s.cursor.viewIn s.layout with visible := s.visible }

/-- The cursor is in the first visual line of its line. -/
def FirstRow (s : Sheet) : Prop := s.cursor.FirstRow s.layout

theorem view_of_firstRow {s : Sheet} (h : s.FirstRow) : s.view = s.cursor.viewIf s.visible := by
  rw [view, Cursor.viewIn_of_firstRow h]
  rfl

/-- Put the cursor at a place; behind the text is the end of it. -/
def select (anchor position : Nat) (s : Sheet) : Sheet :=
  { s with
    anchor := min anchor s.text.length
    position := min position s.text.length
    hanchor := min_le_right _ _
    hposition := min_le_right _ _ }

/-- An edit through the cursor, which is left behind what was inserted. -/
def edit (e : Splice QChar) (s : Sheet) : Sheet :=
  { s with
    text := e.apply s.text
    anchor := (s.text.take e.start ++ e.text).length
    position := (s.text.take e.start ++ e.text).length
    hanchor := (List.prefix_append _ (s.text.drop e.stop)).length_le
    hposition := (List.prefix_append _ (s.text.drop e.stop)).length_le }

/-- `insertText` and `insertPlainText`: the selection is replaced. -/
def insertText (text : List QChar) (s : Sheet) : Sheet := s.edit (Document.insertText s.cursor (lineEnds text))

/-- `insertBlock`: the selection is replaced by the end of a block. -/
def insertBlock (s : Sheet) : Sheet := s.edit (Document.insertText s.cursor [separator])

/-! ### Keys -/

/-- What happens to an editor from outside: the user places the cursor, the lines are wrapped anew, or an event comes in,
with what the clipboard holds then. -/
inductive Input
  | select (anchor position : Nat)
  | resize (layout : TextLayout)
  | event (event : Event) (clipboard : List QChar)

/-- What reaches the widget. Its own cursor movements are placements of the cursor. -/
def widget (event : Event) (clipboard : List QChar) (s : Sheet) : Sheet :=
  match event with
  | .keyPress keyEvent =>
    let e := widgetEdit s.document s.cursor clipboard keyEvent
    if e = noEdit then s else s.edit e
  | .other => s

def handle (b : Build) (s : Sheet) : Input → Except Failure Sheet
  | .select anchor position => return s.select anchor position
  | .resize layout => return { s with layout }
  | .event event clipboard => do
    let r ← PlainEditor.eventFilter b s.view s.dataman event
    let s := { s with dataman := r.dataman }
    if r.answer then
      return if r.inserted = "" then s else s.insertText (utf16 r.inserted.toList)
    else return s.widget event clipboard

/-- The editor after an input; a failed assertion ends the program. -/
def step (b : Build) (s : Sheet) (input : Input) : Sheet :=
  match s.handle b input with
  | .ok s' => s'
  | .error _ => s

@[simp] theorem text_edit (e : Splice QChar) (s : Sheet) : (s.edit e).text = e.apply s.text := rfl

/-- The widget edits the text alone. -/
theorem widget_keeps (s : Sheet) (event : Event) (clipboard : List QChar) :
    (s.widget event clipboard).visible = s.visible ∧ (s.widget event clipboard).dataman = s.dataman ∧
      (s.widget event clipboard).layout = s.layout := by
  unfold widget
  split
  · dsimp only
    split_ifs <;> exact ⟨rfl, rfl, rfl⟩
  · exact ⟨rfl, rfl, rfl⟩

/-- The lines after an edit. -/
theorem document_edit {e : Splice QChar} {s : Sheet} {d : Document} (hplain : e.apply s.text = d.plain) (hne : d ≠ [])
    (hclean : d.Clean) : (s.edit e).document = d := by
  rw [document, text_edit, hplain, ofText_plain hne hclean]

theorem clean_document (s : Sheet) : s.document.Clean := clean_ofText s.text

end Sheet

end MetaEditor
