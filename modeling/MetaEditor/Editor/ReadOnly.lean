import MetaEditor.Editor.Document

/-!
# Titles in the document

The filter keeps a single erasure or insertion away from a title: it asks about the cursor column, and
about the column after it for Delete, and the range of a title includes the column behind its last
character. The keys that act on a selection are not all asked about it. Backspace and Delete are held
back whenever something is selected; a character or Enter is judged by the cursor column alone, and a
key with Ctrl is not judged at all. In a line that is wrapped the column is that of the visual line, and
the filter judges another place than the cursor's. `titles_intact_iff` says when a key that is let through
keeps every title in one piece: always without a selection and without Ctrl in the first visual line of a
line, and else exactly when the edit itself avoids the titles.
-/

namespace MetaEditor

open Lib

/-- Every title is spelled in its line of the document, at its own columns. -/
def TitlesSpelled (decode : Bytes → List QChar) (lm : LineManager) (d : Document) : Prop :=
  ∀ line, ∀ f ∈ lm.fields line, f.mType = .title → ∃ block, d[line.toNat]? = some block ∧
    f.mStart ≤ f.mEnd ∧ f.mEnd.toNat ≤ block.length ∧
    slice block f.mStart.toNat f.mEnd.toNat = decode f.mInfo

/-- After the edit the characters of every title are still one run. -/
def TitlesIntact (edit : Splice QChar) (lm : LineManager) (d : Document) : Prop :=
  ∀ line, ∀ f ∈ lm.fields line, f.mType = .title →
    edit.Intact d.plain (d.offset line.toNat + f.mStart.toNat) (d.offset line.toNat + f.mEnd.toNat)

/-- The edit is outside of every title. -/
def AvoidsTitles (edit : Splice QChar) (lm : LineManager) (d : Document) : Prop :=
  ∀ line, ∀ f ∈ lm.fields line, f.mType = .title →
    edit.Avoids (d.offset line.toNat + f.mStart.toNat) (d.offset line.toNat + f.mEnd.toNat)

section

variable {decode : Bytes → List QChar} {lm : LineManager} {d : Document} {edit : Splice QChar}

/-- Intact titles can still be read. -/
theorem TitlesIntact.readable (h : TitlesIntact edit lm d) (hspelled : TitlesSpelled decode lm d) {line : UInt32}
    {f : Field} (hf : f ∈ lm.fields line) (ht : f.mType = .title) : decode f.mInfo <:+: edit.apply d.plain := by
  obtain ⟨block, hblock, hle, hlen, htext⟩ := hspelled line f hf ht
  have hrun := (h line f hf ht).slice_isInfix
  rw [Document.slice_plain hblock (UInt32.le_iff_toNat_le.mp hle) hlen, htext] at hrun
  exact hrun

theorem titlesIntact_iff_avoids (hspelled : TitlesSpelled decode lm d) (hstart : edit.start ≤ edit.stop)
    (hstop : edit.stop ≤ d.plain.length) : TitlesIntact edit lm d ↔ AvoidsTitles edit lm d := by
  refine forall_congr' fun line => forall_congr' fun f => forall_congr' fun hf => forall_congr' fun ht => ?_
  obtain ⟨block, hblock, hle, hlen, -⟩ := hspelled line f hf ht
  have hend := Document.offset_add_length_le hblock
  rw [UInt32.le_iff_toNat_le] at hle
  exact Splice.intact_iff (by omega) (by omega) hstart hstop

end

namespace PlainEditor

open Document

variable {decode : Bytes → List QChar} {lm : LineManager} {d : Document} {c : Cursor d} {b : Build}
  {keyEvent : KeyEvent} {r : Filtered}

/-- A title in the line of an editable column does not contain it. -/
theorem title_beside {n col : Nat} (hapart : ∀ line, Apart (lm.fields line)) (hn : n < 2 ^ 32) (hcol : col < 2 ^ 32)
    (hedit : lm.isEditable (UInt32.ofNat col) (UInt32.ofNat n) = true) {line : UInt32} {f : Field}
    (hf : f ∈ lm.fields line) (ht : f.mType = .title) (hline : line.toNat = n) :
    col < f.mStart.toNat ∨ f.mEnd.toNat < col := by
  have hn' : line = UInt32.ofNat n := by
    rw [← UInt32.toNat_inj, UInt32.toNat_ofNat', hline]
    omega
  subst hn'
  obtain ⟨i, hi⟩ := List.mem_iff_getElem?.mp hf
  have hout : f.atRange (UInt32.ofNat col) = false := by
    by_contra hin
    have hfirst := (hapart _).firstAt hi (by simpa using hin)
    exact LineManager.not_title_of_isEditable hedit hfirst ht
  rw [Field.atRange_eq_false, UInt32.le_iff_toNat_le, UInt32.le_iff_toNat_le, UInt32.toNat_ofNat'] at hout
  omega

/-- A title in another line is before the cursor's block or after it. -/
theorem title_elsewhere (p : Place d) {m stop : Nat} {block : List QChar} (hblock : d[m]? = some block)
    (hstop : stop ≤ block.length) (hne : m ≠ p.blockNumber) :
    d.offset m + stop < p.position ∨ p.position < d.offset m := by
  rcases Nat.lt_or_gt_of_ne hne with hlt | hlt
  · have hbefore := offset_lt hblock hlt
    have hpos : d.offset p.blockNumber ≤ p.position := Nat.le_add_right _ _
    omega
  · have hafter := offset_lt p.hblock hlt
    have hpos : p.position = d.offset p.blockNumber + p.column := rfl
    have hcol := p.hcolumn
    omega

/-- No title contains an editable column at the cursor or right behind it. -/
theorem title_outside {k : Nat} (hk : k ≤ 1) (hsize : d.plain.length < 2 ^ 31) (hspelled : TitlesSpelled decode lm d)
    (hapart : ∀ line, Apart (lm.fields line))
    (hedit : lm.isEditable (UInt32.ofNat (c.position.column + k)) (UInt32.ofNat c.position.blockNumber) = true)
    {line : UInt32} {f : Field} (hf : f ∈ lm.fields line) (ht : f.mType = .title) :
    c.position.position < d.offset line.toNat + f.mStart.toNat ∧
        c.position.position + k ≤ d.offset line.toNat + f.mStart.toNat ∨
      d.offset line.toNat + f.mEnd.toNat < c.position.position + k := by
  obtain ⟨block, hblock, _, hlen, _⟩ := hspelled line f hf ht
  have hnumber := c.position.blockNumber_le
  have hpos := c.position.position_le
  rw [Place.position] at hpos ⊢
  by_cases hline : line.toNat = c.position.blockNumber
  · have hbeside := title_beside hapart (by omega) (by omega) hedit hf ht hline
    rw [hline]
    omega
  · have helse := title_elsewhere c.position hblock hlen hline
    rw [Place.position] at helse
    omega

/-- The cursor is outside of every title when its column is editable. -/
theorem cursor_outside (hsize : d.plain.length < 2 ^ 31) (hspelled : TitlesSpelled decode lm d)
    (hapart : ∀ line, Apart (lm.fields line)) (hedit : lm.isEditable (column c.view) (currentLine c.view) = true)
    {line : UInt32} {f : Field} (hf : f ∈ lm.fields line) (ht : f.mType = .title) :
    c.position.position < d.offset line.toNat + f.mStart.toNat ∨
      d.offset line.toNat + f.mEnd.toNat < c.position.position := by
  rw [Cursor.column_view, Cursor.currentLine_view] at hedit
  exact (title_outside (Nat.zero_le 1) hsize hspelled hapart hedit hf ht).imp_left And.left

/-- The character after the cursor is in no title when the next column is editable. -/
theorem nextCharacter_outside (hsize : d.plain.length < 2 ^ 31) (hspelled : TitlesSpelled decode lm d)
    (hapart : ∀ line, Apart (lm.fields line)) (hedit : lm.isEditable (nextColumn c.view) (currentLine c.view) = true)
    {line : UInt32} {f : Field} (hf : f ∈ lm.fields line) (ht : f.mType = .title) :
    c.position.position + 1 ≤ d.offset line.toNat + f.mStart.toNat ∨
      d.offset line.toNat + f.mEnd.toNat ≤ c.position.position := by
  rw [Cursor.nextColumn_view, Cursor.currentLine_view] at hedit
  exact (title_outside le_rfl hsize hspelled hapart hedit hf ht).imp And.right Nat.le_of_lt_succ

/-- Without Ctrl and without a selection the edit avoids every title. -/
theorem avoidsTitles_of_noSelection (clipboard : List QChar) (hsize : d.plain.length < 2 ^ 31)
    (hspelled : TitlesSpelled decode lm d) (hapart : ∀ line, Apart (lm.fields line))
    (hctrl : keyEvent.controlModifier = false) (hsel : c.NoSelection)
    (h : eventFilter b c.view lm (.keyPress keyEvent) = .ok r) (hlet : r.answer = false) :
    AvoidsTitles (d.widgetEdit c clipboard keyEvent) lm d := by
  intro line f hf ht
  have hnone : ∀ {edit : Splice QChar}, edit = noEdit → edit.Avoids
      (d.offset line.toNat + f.mStart.toNat) (d.offset line.toNat + f.mEnd.toNat) := by
    rintro edit rfl
    exact .inr (.inr (.inr ⟨rfl, rfl⟩))
  have hstart := hsel.start
  have hstop := hsel.stop
  simp only [eventFilter, keyFilter, hctrl, Bool.false_eq_true, if_false] at h
  unfold widgetEdit
  cases hkey : keyEvent.key <;> simp only [hkey] at h
  case enter | «return» =>
    have hout := cursor_outside hsize hspelled hapart (enterKey_letThrough h hlet).2 hf ht
    simp only [Splice.Avoids, hstart, hstop]
    omega
  case backspace =>
    have hout := cursor_outside hsize hspelled hapart (eraseKey_letThrough h hlet).2.1 hf ht
    simp only [Splice.Avoids, hstart, hstop, if_true]
    omega
  case delete =>
    have hout := nextCharacter_outside hsize hspelled hapart (eraseKey_letThrough h hlet).2.1 hf ht
    simp only [Splice.Avoids, hstart, hstop, if_true]
    omega
  case other code =>
    obtain ⟨_, _, hcall⟩ := characterKey_letThrough h hlet
    have hout := cursor_outside hsize hspelled hapart (LineManager.isEditable_of_eventFilter hcall) hf ht
    simp only [hctrl, Bool.false_eq_true, if_false]
    by_cases htext : keyEvent.text = []
    · rw [if_pos htext]
      exact hnone rfl
    · rw [if_neg htext]
      simp only [Splice.Avoids, hstart, hstop]
      omega
  all_goals exact hnone rfl

/-- A key that is let through keeps every title in one piece exactly when neither Ctrl is held nor anything
selected and the cursor is in the first visual line of its line, or the edit avoids the titles. -/
theorem titles_intact_iff (layout : TextLayout) (clipboard : List QChar) (hsize : d.plain.length < 2 ^ 31)
    (hspelled : TitlesSpelled decode lm d) (hapart : ∀ line, Apart (lm.fields line))
    (h : eventFilter b (c.viewIn layout) lm (.keyPress keyEvent) = .ok r) (hlet : r.answer = false) :
    TitlesIntact (d.widgetEdit c clipboard keyEvent) lm d ↔
      (keyEvent.controlModifier = false ∧ c.NoSelection ∧ c.FirstRow layout) ∨
        AvoidsTitles (d.widgetEdit c clipboard keyEvent) lm d := by
  obtain ⟨hstart, hstop⟩ := d.widgetEdit_bounds c clipboard keyEvent
  rw [titlesIntact_iff_avoids hspelled hstart hstop]
  refine ⟨.inr, ?_⟩
  rintro (⟨hctrl, hsel, hrow⟩ | havoid)
  · rw [Cursor.viewIn_of_firstRow hrow] at h
    exact avoidsTitles_of_noSelection clipboard hsize hspelled hapart hctrl hsel h hlet
  · exact havoid

/-! ### A document with one title -/

/-- The title `AB` at the columns `0` and `1` of the first line. -/
def oneTitle : LineManager :=
  LineManager.empty.write 0 { mNumber := 0, mFields := [⟨0, .title, 0, 2, [65, 66]⟩] }

/-- The document for it: `AB` and four blanks. -/
def oneLine : Document := [[65, 66, 32, 32, 32, 32]]

/-- A cursor in `oneLine`. -/
def oneLineCursor (anchor column : Nat) (ha : anchor ≤ 6) (hc : column ≤ 6) : Cursor oneLine :=
  { anchor := ⟨0, anchor, [65, 66, 32, 32, 32, 32], rfl, ha⟩
    position := ⟨0, column, [65, 66, 32, 32, 32, 32], rfl, hc⟩ }

theorem fields_oneTitle (line : UInt32) :
    oneTitle.fields line = [⟨0, .title, 0, 2, [65, 66]⟩] ∧ line = 0 ∨ oneTitle.fields line = [] := by
  by_cases hline : line = 0
  · subst hline
    exact .inl ⟨LineManager.fields_write_self _ _ _, rfl⟩
  · refine .inr ?_
    rw [oneTitle, LineManager.fields_write_of_ne (Ne.symm hline), LineManager.fields_empty]

theorem titlesSpelled_oneTitle : TitlesSpelled (List.map UInt8.toUInt16) oneTitle oneLine := by
  intro line f hf _
  rcases fields_oneTitle line with ⟨hfields, rfl⟩ | hfields
  · rw [hfields, List.mem_singleton] at hf
    subst hf
    exact ⟨_, rfl, by decide, by decide, by decide⟩
  · rw [hfields] at hf
    cases hf

theorem apart_oneTitle (line : UInt32) : Apart (oneTitle.fields line) := by
  rcases fields_oneTitle line with ⟨hfields, -⟩ | hfields <;> rw [hfields] <;> decide

/-- Typing `x` behind the title, nothing selected. -/
theorem titles_intact_iff_typed :
    TitlesIntact (oneLine.widgetEdit (oneLineCursor 5 5 (by decide) (by decide)) [] ⟨.other 0x58, false, [120]⟩)
        oneTitle oneLine ↔
      (false = false ∧ (oneLineCursor 5 5 (by decide) (by decide)).NoSelection ∧
        (oneLineCursor 5 5 (by decide) (by decide)).FirstRow .unwrapped) ∨
        AvoidsTitles (oneLine.widgetEdit (oneLineCursor 5 5 (by decide) (by decide)) [] ⟨.other 0x58, false, [120]⟩)
          oneTitle oneLine :=
  titles_intact_iff (b := ⟨true, none⟩) .unwrapped [] (by decide) titlesSpelled_oneTitle apart_oneTitle rfl rfl

/-- Typing `x` behind the title with the selection reaching back over it: the filter lets the key
through, and the title is gone. -/
theorem titles_not_intact :
    ¬∀ (b : Build) (layout : TextLayout) (decode : Bytes → List QChar) (lm : LineManager) (d : Document)
      (c : Cursor d) (clipboard : List QChar) (keyEvent : KeyEvent) (r : Filtered), d.plain.length < 2 ^ 31 →
      TitlesSpelled decode lm d → (∀ line, Apart (lm.fields line)) →
      eventFilter b (c.viewIn layout) lm (.keyPress keyEvent) = .ok r → r.answer = false →
      ∀ line, ∀ f ∈ lm.fields line, f.mType = .title →
        decode f.mInfo <:+: (d.widgetEdit c clipboard keyEvent).apply d.plain := by
  intro h
  have hinfix := h ⟨true, none⟩ .unwrapped _ oneTitle oneLine (oneLineCursor 0 5 (by decide) (by decide)) []
    ⟨.other 0x58, false, [120]⟩ _ (by decide) titlesSpelled_oneTitle apart_oneTitle rfl rfl 0
    ⟨0, .title, 0, 2, [65, 66]⟩ (List.mem_singleton.mpr rfl) rfl
  exact absurd hinfix (by decide)

end PlainEditor

end MetaEditor
