import MetaEditor.Data.Row
import MetaEditor.Editor.Session

/-!
# Typing and taking back

An editor whose own filter sees its keys can take back what was typed. A word that is typed and then erased with
Backspace leaves the editor as it was, its text, its cursor and its structure, when it went into a field that is there
and no field made earlier takes over on the way. A character that is typed beside all fields leaves an empty field
behind, and one behind which an earlier field begins is not found again. All this is in the first visual line: behind it
the columns that the filter passes on are those of other characters.
-/

namespace MetaEditor

open Lib Document

/-- `n` characters can be typed from a column on into the field found there, and no field made earlier has one of the
columns behind them. -/
structure TypesInto (fields : List Field) (col : UInt32) (n i : Nat) (f : Field) : Prop where
  first : FirstAt fields col i f
  type : f.mType ≠ .title
  stored : (col - f.mStart).toNat ≤ f.mInfo.length
  alone : ∀ k ≤ n, ∀ (j : Nat) g, j < i → fields[j]? = some g → g.atRange (col + UInt32.ofNat k) = false
  room : f.mEnd.toNat + n < 2 ^ 32

namespace LineManager

/-- The structure after a character that went into a field. -/
def typedInto (lm : LineManager) (col line : UInt32) (i : Nat) (f : Field) (c : UInt8) : LineManager :=
  lm.write line ((lm.lineFor line).setFields
    (Line.shiftFrom (f.mPosition + 1) Field.shiftRight ((lm.fields line).set i (f.withChar c col))))

variable {lm : LineManager} {col line : UInt32} {n i : Nat} {f : Field}

@[simp] theorem fields_typedInto (c : UInt8) : (lm.typedInto col line i f c).fields line =
    Line.shiftFrom (f.mPosition + 1) Field.shiftRight ((lm.fields line).set i (f.withChar c col)) :=
  fields_write_self ..

theorem eventFilter_typesInto (h : TypesInto (lm.fields line) col n i f) (c : UInt8) :
    lm.eventFilter col line c = .ok (true, lm.typedInto col line i f c) :=
  eventFilter_of_le h.first h.type h.stored

/-- Behind the character the field is found again, and takes the next one. -/
theorem typesInto_next (hidx : Indexed (lm.fields line)) (h : TypesInto (lm.fields line) col (n + 1) i f) (c : UInt8) :
    TypesInto ((lm.typedInto col line i f c).fields line) (col + 1) n i (f.withChar c col) := by
  have hpos := hidx i f h.first.get
  have hroom := h.room
  obtain ⟨hlow, hhigh⟩ := Field.atRange_eq_true.mp h.first.inRange
  rw [UInt32.le_iff_toNat_le] at hlow hhigh
  have hcol : (col + 1).toNat = col.toNat + 1 := toNat_add_one_of_lt (by omega)
  have hend : (f.mEnd + 1).toNat = f.mEnd.toNat + 1 := toNat_add_one_of_lt (by omega)
  have hbefore : ∀ (j : Nat) g, j < i → ((lm.typedInto col line i f c).fields line)[j]? = some g →
      (lm.fields line)[j]? = some g := by
    intro j g hj hg
    rw [fields_typedInto, hpos, Line.getElem?_edit h.first.lt] at hg
    rcases hg with ⟨-, hg⟩ | ⟨rfl, -⟩ | ⟨hlt, -⟩
    · exact hg
    · exact absurd hj (lt_irrefl j)
    · exact absurd hj hlt.not_gt
  have hnext : ∀ k ≤ n, ∀ (j : Nat) g, j < i → ((lm.typedInto col line i f c).fields line)[j]? = some g →
      g.atRange (col + 1 + UInt32.ofNat k) = false := by
    intro k hk j g hj hg
    have hk' : col + 1 + UInt32.ofNat k = col + UInt32.ofNat (k + 1) := by
      rw [UInt32.ofNat_add, UInt32.add_assoc, UInt32.add_comm (UInt32.ofNat k)]
      rfl
    rw [hk']
    exact h.alone (k + 1) (by omega) j g hj (hbefore j g hj hg)
  have hzero : col + 1 + UInt32.ofNat 0 = col + 1 := UInt32.add_zero _
  refine ⟨⟨?_, ?_, fun j g hj hg => hzero ▸ hnext 0 (Nat.zero_le n) j g hj hg⟩, h.type, ?_, hnext, ?_⟩
  · rw [fields_typedInto, hpos]
    exact (Line.getElem?_edit h.first.lt).mpr (.inr (.inl ⟨rfl, rfl⟩))
  · rw [Field.atRange_eq_true, UInt32.le_iff_toNat_le, UInt32.le_iff_toNat_le]
    show f.mStart.toNat ≤ (col + 1).toNat ∧ (col + 1).toNat ≤ (f.mEnd + 1).toNat
    omega
  · have hoffset : (col + 1 - f.mStart).toNat = (col - f.mStart).toNat + 1 := by
      rw [UInt32.toNat_sub_of_le _ _ (UInt32.le_iff_toNat_le.mpr (by omega)),
        UInt32.toNat_sub_of_le _ _ (UInt32.le_iff_toNat_le.mpr hlow), hcol]
      omega
    rw [Field.length_withChar h.stored]
    show (col + 1 - f.mStart).toNat ≤ _
    rw [hoffset]
    exact Nat.succ_le_succ h.stored
  · show (f.mEnd + 1).toNat + n < 2 ^ 32
    omega

theorem indexed_typedInto (hidx : ∀ line, Indexed (lm.fields line)) (h : TypesInto (lm.fields line) col n i f) (c : UInt8)
    (line' : UInt32) : Indexed ((lm.typedInto col line i f c).fields line') := by
  have hstep : lm.step (.eventFilter col line c) = lm.typedInto col line i f c :=
    step_of_eventFilter (eventFilter_typesInto h c)
  rw [← hstep]
  exact fields_step_inv Indexed (fun _ hbefore => indexed_fieldsStep hbefore) hidx line'

/-- Shifted there and back, with the field as it was. -/
theorem edit_back {fields : List Field} (hf : fields[i]? = some f) (f' : Field) :
    Line.shiftFrom (i + 1) Field.shiftLeft ((Line.shiftFrom (i + 1) Field.shiftRight (fields.set i f')).set i f) = fields := by
  obtain ⟨before, after, rfl, rfl⟩ := exists_middle_of_getElem? hf
  rw [Line.edit_middle, Line.edit_middle, List.map_map,
    show Field.shiftLeft ∘ Field.shiftRight = id from funext Field.shiftLeft_shiftRight, List.map_id]

/-- Backspace behind the character gives the structure back. -/
theorem removeCharacter_typedInto (hidx : Indexed (lm.fields line)) (h : TypesInto (lm.fields line) col (n + 1) i f)
    (c : UInt8) :
    (lm.typedInto col line i f c).isEditable (col + 1) line = true ∧
      (lm.typedInto col line i f c).removeCharacter (col + 1) line = .ok lm := by
  have hnext := typesInto_next hidx h c
  have hpos : (f.withChar c col).mPosition = i := hidx i f h.first.get
  obtain ⟨ptr, hget, -⟩ := exists_line h.first
  have hle : (col + 1 - 1 - (f.withChar c col).mStart).toNat ≤ (f.withChar c col).mInfo.length := by
    rw [UInt32.add_sub_cancel, Field.length_withChar h.stored]
    exact h.stored.trans (Nat.le_succ _)
  refine ⟨?_, ?_⟩
  · rw [isEditable_of_firstAt hnext.first, bne_iff_ne]
    exact h.type
  · have hback : (f.withChar c col).withoutChar (col + 1 - 1) = f := Field.withoutChar_withChar h.stored c
    have hfields : Line.shiftFrom ((f.withChar c col).mPosition + 1) Field.shiftLeft
        (((lm.typedInto col line i f c).fields line).set i ((f.withChar c col).withoutChar (col + 1 - 1))) = lm.fields line := by
      rw [hback, hpos, fields_typedInto, hidx i f h.first.get]
      exact edit_back h.first.get _
    have hline : ((lm.typedInto col line i f c).lineFor line).setFields (lm.fields line) = ptr := by
      rw [typedInto, lineFor_write_self, lineFor_of_get? hget, fields_of_get? hget]
      rfl
    rw [removeCharacter_of_le hnext.first hle, hfields, hline, typedInto, write_write]
    exact congrArg Except.ok (write_self hget)

/-- When Backspace finds a field that was made before the one that has the character, that one is left with it. -/
theorem not_back_of_earlier {fields : List Field} (hidx : Indexed fields) (hfirst : FirstAt fields col i f)
    (hle : (col - f.mStart).toNat ≤ f.mInfo.length) {c : UInt8} {j : Nat} {g g' : Field} (hj : j < i)
    (hg : (Line.shiftFrom (i + 1) Field.shiftRight (fields.set i (f.withChar c col)))[j]? = some g) :
    Line.shiftFrom (g.mPosition + 1) Field.shiftLeft
      ((Line.shiftFrom (i + 1) Field.shiftRight (fields.set i (f.withChar c col))).set j g') ≠ fields := by
  intro hback
  have hpos : g.mPosition = j := by
    rcases (Line.getElem?_edit hfirst.lt).mp hg with ⟨-, hget⟩ | ⟨rfl, -⟩ | ⟨hlt, -⟩
    · exact hidx j g hget
    · exact absurd hj (lt_irrefl j)
    · exact absurd hj hlt.not_gt
  have hlt : j < (Line.shiftFrom (i + 1) Field.shiftRight (fields.set i (f.withChar c col))).length :=
    (List.getElem?_eq_some_iff.mp hg).1
  have hget : fields[i]? = some (f.withChar c col).shiftLeft := by
    rw [← hback, hpos]
    refine (Line.getElem?_edit hlt).mpr (.inr (.inr ⟨hj, f.withChar c col, ?_, rfl⟩))
    exact (Line.getElem?_edit hfirst.lt).mpr (.inr (.inl ⟨rfl, rfl⟩))
  have hlength := congrArg (·.mInfo.length) (Option.some.inj (hfirst.get.symm.trans hget))
  rw [Field.shiftLeft_mInfo, Field.length_withChar hle] at hlength
  omega

/-- The structure after a character that changed it is given back by Backspace exactly when the character went into a
field, and no field made earlier has the column behind it. -/
theorem removeCharacter_back_iff {c : UInt8} {lm' : LineManager} (hidx : Indexed (lm.fields line))
    (hroom : ∀ g ∈ lm.fields line, g.mEnd.toNat + 1 < 2 ^ 32) (hcall : lm.eventFilter col line c = .ok (true, lm'))
    (hne : lm' ≠ lm) :
    lm'.isEditable (col + 1) line = true ∧ lm'.removeCharacter (col + 1) line = .ok lm ↔
      ∃ i f, FirstAt (lm.fields line) col i f ∧
        ∀ (j : Nat) g, j < i → (lm.fields line)[j]? = some g → g.atRange (col + 1) = false := by
  constructor
  · rintro ⟨-, hremove⟩
    rcases fields_of_removeCharacter hremove with ⟨heq, -⟩ | ⟨j₀, f₀, hfirst₀, -, hback⟩
    · exact absurd heq.symm hne
    · rcases fields_of_eventFilter hcall with ⟨i, f, hfirst, hle, hfields⟩ | ⟨_, _, _, _, heq⟩ | ⟨-, hfields⟩
      · refine ⟨i, f, hfirst, fun j g hj hg => ?_⟩
        by_contra hin
        have hpos := hidx i f hfirst.get
        rw [hpos] at hfields
        have hg' : (lm'.fields line)[j]? = some g := by
          rw [hfields]
          exact (Line.getElem?_edit hfirst.lt).mpr (.inl ⟨hj, hg⟩)
        -- the field that is found now was made before the one that has the character
        have hj₀ : j₀ ≤ j := by
          by_contra hlt
          exact hin (hfirst₀.first j g (not_le.mp hlt) hg')
        have hget := hfirst₀.get
        rw [hfields] at hget hback
        exact not_back_of_earlier hidx hfirst hle (hj₀.trans_lt hj) hget hback.symm
      · exact absurd heq hne
      · have hlength := congrArg List.length hback
        rw [hfields, Line.shiftFrom, List.length_mapIdx, List.length_set, List.length_append, List.length_singleton] at hlength
        omega
  · rintro ⟨i, f, hfirst, hbehind⟩
    have hroomf := hroom f hfirst.mem
    rcases lm.eventFilter_cases col line c with ⟨j, g, hg, -, hrefused⟩ | ⟨j, g, hg, htype, hle, htyped⟩ |
      ⟨j, g, hg, -, -, hlost⟩ | ⟨hnone, -⟩
    · rw [hrefused] at hcall
      cases hcall
    · obtain ⟨rfl, rfl⟩ := hg.unique hfirst
      have hinto : TypesInto (lm.fields line) col 1 j g := by
        refine ⟨hfirst, htype, hle, fun k hk j' g' hj' hg' => ?_, hroomf⟩
        obtain rfl | rfl : k = 0 ∨ k = 1 := by omega
        · rw [show col + UInt32.ofNat 0 = col from UInt32.add_zero col]
          exact hfirst.first j' g' hj' hg'
        · exact hbehind j' g' hj' hg'
      rw [htyped] at hcall
      cases hcall
      exact removeCharacter_typedInto hidx hinto c
    · rw [hlost] at hcall
      cases hcall
      exact absurd rfl hne
    · exact absurd hnone hfirst.not_outside

end LineManager

namespace Sheet

/-! ### The keys -/

/-- A key that types a character. -/
def characterEvent (code : Nat) (c : QChar) : Event :=
  .keyPress { key := .other code, controlModifier := false, text := [c] }

def backspaceEvent : Event := .keyPress { key := .backspace, controlModifier := false, text := [0x08] }

/-- The cursor is in a line at a column, and nothing is selected. -/
structure At (s : Sheet) (n col : Nat) : Prop where
  selection : s.anchor = s.position
  blockNumber : s.cursor.position.blockNumber = n
  column : s.cursor.position.column = col

section

variable {b : Build} {s : Sheet} {n col : Nat} {clipboard : List QChar} {lm' : LineManager}

theorem At.position (h : At s n col) : s.position = s.document.offset n + col := by
  rw [← s.position_position_cursor, Place.position, h.blockNumber, h.column]

/-- What the filter passes on. -/
theorem At.view (h : At s n col) (hvisible : s.visible = true) (hfirst : s.FirstRow) :
    PlainEditor.column s.view = UInt32.ofNat col ∧ PlainEditor.currentLine s.view = UInt32.ofNat n := by
  rw [column_view hvisible hfirst, currentLine_view, h.column, h.blockNumber]
  exact ⟨rfl, rfl⟩

/-- The cursor is known by its position. -/
theorem at_of_position (row : List QChar) (hselection : s.anchor = s.position) (hrow : s.document[n]? = some row)
    (hcol : col ≤ row.length) (hposition : s.position = s.document.offset n + col) : At s n col := by
  have hplace : s.cursor.position.position =
      (Place.mk (d := s.document) n col row hrow hcol).position := (position_position_cursor s).trans hposition
  obtain ⟨hblock, hcolumn, -⟩ := Place.eq_of_position hplace
  exact ⟨hselection, hblock, hcolumn⟩

/-- A key that is let through and edits the text. -/
theorem step_letThrough {keyEvent : KeyEvent} {e : Splice QChar}
    (hfilter : PlainEditor.eventFilter b s.view s.dataman (.keyPress keyEvent) = .ok (PlainEditor.letThrough lm'))
    (he : widgetEdit s.document s.cursor clipboard keyEvent = e) (hne : e ≠ noEdit) :
    s.step b (.event (.keyPress keyEvent) clipboard) = ({ s with dataman := lm' } : Sheet).edit e := by
  have hwidget : ({ s with dataman := lm' } : Sheet).widget (.keyPress keyEvent) clipboard =
      if e = noEdit then ({ s with dataman := lm' } : Sheet) else ({ s with dataman := lm' } : Sheet).edit e :=
    congrArg (fun e => if e = noEdit then ({ s with dataman := lm' } : Sheet) else ({ s with dataman := lm' } : Sheet).edit e) he
  rw [step_keyPress hfilter rfl]
  exact (if_neg Bool.false_ne_true).trans (hwidget.trans (if_neg hne))

/-- A character that is let through. -/
theorem step_characterEvent (b : Build) (clipboard : List QChar) (code : Nat) (hvisible : s.visible = true)
    (hfirst : s.FirstRow) (hat : At s n col) {c : QChar}
    (hcall : s.dataman.eventFilter (UInt32.ofNat col) (UInt32.ofNat n) c.toLatin1 = .ok (true, lm')) :
    s.step b (.event (characterEvent code c) clipboard) =
      ({ s with dataman := lm' } : Sheet).edit { start := s.position, stop := s.position, text := [c] } := by
  obtain ⟨hcolumn, hline⟩ := hat.view hvisible hfirst
  rw [← hcolumn, ← hline] at hcall
  have hfilter : PlainEditor.eventFilter b s.view s.dataman (characterEvent code c) = .ok (PlainEditor.letThrough lm') :=
    eventFilter_typed s.view s.dataman rfl rfl rfl hcall
  have he : widgetEdit s.document s.cursor clipboard { key := .other code, controlModifier := false, text := [c] } =
      { start := s.position, stop := s.position, text := [c] } := by
    simp only [widgetEdit, selectionStart_cursor, selectionEnd_cursor, start, stop, hat.selection, min_self, max_self]
    rfl
  exact step_letThrough hfilter he fun heq => List.cons_ne_nil _ _ (congrArg Splice.text heq)

theorem eventFilter_backspaceEvent (hvisible : s.visible = true) (hfirst : s.FirstRow) (hat : At s n col) :
    PlainEditor.eventFilter b s.view s.dataman backspaceEvent =
      if s.dataman.isEditable (UInt32.ofNat col) (UInt32.ofNat n) = false then .ok (PlainEditor.stop s.dataman)
      else (s.dataman.removeCharacter (UInt32.ofNat col) (UInt32.ofNat n)).map PlainEditor.letThrough := by
  obtain ⟨hcolumn, hline⟩ := hat.view hvisible hfirst
  have hselection := s.selection_view.mpr hat.selection
  show PlainEditor.eraseKey s.view s.dataman (PlainEditor.column s.view) = _
  rw [PlainEditor.eraseKey, if_pos hselection, hcolumn, hline]
  cases s.dataman.removeCharacter (UInt32.ofNat col) (UInt32.ofNat n) <;> rfl

/-- A character that changes the structure is let through. -/
theorem eventFilter_of_changed (hvisible : s.visible = true) (hfirst : s.FirstRow) (hat : At s n col) {code : Nat} {c : QChar}
    (hchanged : (s.step b (.event (characterEvent code c) clipboard)).dataman ≠ s.dataman) :
    ∃ lm', s.dataman.eventFilter (UInt32.ofNat col) (UInt32.ofNat n) c.toLatin1 = .ok (true, lm') := by
  obtain ⟨hcolumn, hline⟩ := hat.view hvisible hfirst
  rcases s.dataman.eventFilter_cases (UInt32.ofNat col) (UInt32.ofNat n) c.toLatin1 with ⟨_, _, -, -, hrefused⟩ |
    ⟨_, _, -, -, -, hcall⟩ | ⟨_, _, -, -, -, hcall⟩ | ⟨-, hcall⟩
  · refine absurd ?_ hchanged
    rw [← hcolumn, ← hline] at hrefused
    rw [characterEvent, step_keyPress (eventFilter_typed _ _ rfl rfl rfl hrefused) rfl]
    rfl
  · exact ⟨_, hcall⟩
  · exact ⟨_, hcall⟩
  · exact ⟨_, hcall⟩

/-- A Backspace that is let through. -/
theorem step_backspaceEvent (b : Build) (clipboard : List QChar) (hvisible : s.visible = true) (hfirst : s.FirstRow)
    (hat : At s n col) (hpos : s.position ≠ 0)
    (hedit : s.dataman.isEditable (UInt32.ofNat col) (UInt32.ofNat n) = true)
    (hcall : s.dataman.removeCharacter (UInt32.ofNat col) (UInt32.ofNat n) = .ok lm') :
    s.step b (.event backspaceEvent clipboard) =
      ({ s with dataman := lm' } : Sheet).edit { start := s.position - 1, stop := s.position, text := [] } := by
  have hfilter : PlainEditor.eventFilter b s.view s.dataman backspaceEvent = .ok (PlainEditor.letThrough lm') := by
    rw [eventFilter_backspaceEvent hvisible hfirst hat, hedit, if_neg (Ne.symm Bool.false_ne_true), hcall]
    rfl
  have he : widgetEdit s.document s.cursor clipboard { key := .backspace, controlModifier := false, text := [0x08] } =
      { start := s.position - 1, stop := s.position, text := [] } := by
    simp only [widgetEdit, selectionStart_cursor, selectionEnd_cursor, start, stop, hat.selection, min_self, max_self,
      if_true]
  exact step_letThrough hfilter he fun heq => hpos (congrArg Splice.stop heq)

/-- An edit that puts in a character, with the structure after it. -/
abbrev typed (s : Sheet) (c : QChar) (lm' : LineManager) : Sheet :=
  ({ s with dataman := lm' } : Sheet).edit { start := s.position, stop := s.position, text := [c] }

theorem position_typed (s : Sheet) (c : QChar) (lm' : LineManager) : (s.typed c lm').position = s.position + 1 := by
  show (s.text.take s.position ++ [c]).length = _
  rw [List.length_append, List.length_take_of_le s.hposition, List.length_singleton]

theorem document_typed (hat : At s n col) {c : QChar} (hc : c ≠ separator) (lm' : LineManager) :
    (s.typed c lm').document =
      s.document.set n (s.cursor.position.block.take col ++ [c] ++ s.cursor.position.block.drop col) := by
  have hrow := s.cursor.position.hblock
  rw [hat.blockNumber] at hrow
  have hcol := s.cursor.position.hcolumn
  rw [hat.column] at hcol
  have hinside : (({ s with dataman := lm' } : Sheet).edit
      { start := s.document.offset n + col, stop := s.document.offset n + col, text := [c] }).document = _ :=
    document_edit_inside { s with dataman := lm' } [c] hrow hcol hcol (List.mem_singleton.not.mpr hc.symm)
  rw [← hat.position] at hinside
  exact hinside

theorem At.lt_length (hat : At s n col) : n < s.document.length := by
  rw [← hat.blockNumber]
  exact (List.getElem?_eq_some_iff.mp s.cursor.position.hblock).1

/-- Then the cursor is behind the character. -/
theorem At.typed (hat : At s n col) {c : QChar} (hc : c ≠ separator) (lm' : LineManager) :
    At (s.typed c lm') n (col + 1) := by
  have hcol := s.cursor.position.hcolumn
  rw [hat.column] at hcol
  have hdocument := document_typed hat hc lm'
  refine at_of_position (s.cursor.position.block.take col ++ [c] ++ s.cursor.position.block.drop col) rfl ?_ ?_ ?_
  · rw [hdocument, List.getElem?_set_self hat.lt_length]
  · simp only [List.length_append, List.length_take, List.length_drop, List.length_singleton]
    omega
  · have hoffset : (s.typed c lm').document.offset n = s.document.offset n := by
      rw [hdocument, Document.offset, Document.offset, List.take_set_of_le le_rfl]
    rw [hoffset, position_typed, hat.position, Nat.add_assoc]

/-- With the first characters of a word typed, the cursor is in the first visual line. -/
def Fits (s : Sheet) (word : List QChar) : Prop :=
  ∀ k ≤ word.length, s.layout.textStart
    (s.document.set s.cursor.position.blockNumber (s.cursor.position.block.take s.cursor.position.column ++ word.take k ++
      s.cursor.position.block.drop s.cursor.position.column))
    s.cursor.position.blockNumber (s.cursor.position.column + k) = 0

theorem Fits.firstRow {word : List QChar} (h : s.Fits word) : s.FirstRow := by
  have hnow := h 0 (Nat.zero_le _)
  rwa [List.take_zero, List.append_nil, List.take_append_drop, set_self s.cursor.position.hblock] at hnow

/-- The rest of the word fits behind the first character. -/
theorem Fits.typed {c : QChar} {word : List QChar} (h : s.Fits (c :: word)) (hat : At s n col) (hc : c ≠ separator)
    (lm' : LineManager) : (s.typed c lm').Fits word := by
  have hat' := hat.typed hc lm'
  have hdocument := document_typed hat hc lm'
  have hcol := s.cursor.position.hcolumn
  rw [hat.column] at hcol
  have hblock : (s.typed c lm').cursor.position.block =
      s.cursor.position.block.take col ++ [c] ++ s.cursor.position.block.drop col := by
    have hrow := (s.typed c lm').cursor.position.hblock
    rw [hat'.blockNumber] at hrow
    have hnew : (s.document.set n (s.cursor.position.block.take col ++ [c] ++ s.cursor.position.block.drop col))[n]? =
        some (s.cursor.position.block.take col ++ [c] ++ s.cursor.position.block.drop col) :=
      List.getElem?_set_self hat.lt_length
    exact Option.some.inj (hrow.symm.trans ((congrArg (·[n]?) hdocument).trans hnew))
  have hlength : (s.cursor.position.block.take col ++ [c]).length = col + 1 := by
    rw [List.length_append, List.length_take_of_le hcol, List.length_singleton]
  intro k hk
  have hnext := h (k + 1) (Nat.succ_le_succ hk)
  rw [hat.blockNumber, hat.column, List.take_succ_cons] at hnext
  rw [hat'.blockNumber, hat'.column, hblock, hdocument, List.set_set, ← hlength, List.take_left, List.drop_left, hlength,
    List.append_assoc _ [c], List.singleton_append, Nat.add_right_comm, Nat.add_assoc]
  exact hnext

theorem eq_of_parts {s s' : Sheet} (htext : s.text = s'.text) (hanchor : s.anchor = s'.anchor)
    (hposition : s.position = s'.position) (hdataman : s.dataman = s'.dataman) (hvisible : s.visible = s'.visible)
    (hlayout : s.layout = s'.layout) : s = s' := by
  cases s
  cases s'
  rw [Sheet.mk.injEq]
  exact ⟨htext, hanchor, hposition, hdataman, hvisible, hlayout⟩

/-- Taking the character out again gives the editor back. -/
theorem edit_typed (hselection : s.anchor = s.position) (c : QChar) (lm' : LineManager) :
    ({ s.typed c lm' with dataman := s.dataman } : Sheet).edit
      { start := (s.typed c lm').position - 1, stop := (s.typed c lm').position, text := [] } = s := by
  have hlength : (s.text.take s.position).length = s.position := List.length_take_of_le s.hposition
  have htake : (s.typed c lm').text.take s.position = s.text.take s.position := by
    show (s.text.take s.position ++ [c] ++ s.text.drop s.position).take s.position = _
    rw [List.append_assoc, List.take_append_of_le_length hlength.ge, List.take_of_length_le hlength.le]
  have hdrop : (s.typed c lm').text.drop (s.position + 1) = s.text.drop s.position := by
    have hcursor : (s.text.take s.position ++ [c]).length = s.position + 1 := by rw [List.length_append, hlength]; rfl
    show (s.text.take s.position ++ [c] ++ s.text.drop s.position).drop (s.position + 1) = _
    rw [← hcursor, List.drop_left]
  rw [position_typed, Nat.add_sub_cancel]
  have hcursor : ((s.typed c lm').text.take s.position ++ []).length = s.position := by
    rw [htake, List.append_nil, hlength]
  refine eq_of_parts ?_ (hcursor.trans hselection.symm) hcursor rfl rfl rfl
  show (s.typed c lm').text.take s.position ++ [] ++ (s.typed c lm').text.drop (s.position + 1) = s.text
  rw [htake, hdrop, List.append_nil, List.take_append_drop]

/-! ### Words -/

/-- The keys of a word, and as many Backspaces. -/
def typing (clipboard : List QChar) (word : List (Nat × QChar)) : List Input :=
  word.map fun key => .event (characterEvent key.1 key.2) clipboard

def erasing (clipboard : List QChar) (word : List (Nat × QChar)) : List Input :=
  List.replicate word.length (.event backspaceEvent clipboard)

/-- By induction on the word: the first character is taken out last. -/
theorem run_typing_erasing (word : List (Nat × QChar)) (hword : ∀ key ∈ word, Printable key.2) {s : Sheet} {n col i : Nat}
    {f : Field} (hvisible : s.visible = true) (hfits : s.Fits (word.map Prod.snd)) (hat : At s n col)
    (hidx : ∀ line, Indexed (s.dataman.fields line))
    (hinto : TypesInto (s.dataman.fields (UInt32.ofNat n)) (UInt32.ofNat col) word.length i f) :
    run (step b) s (typing clipboard word ++ erasing clipboard word) = s := by
  induction word generalizing s col i f with
  | nil => rfl
  | cons key word ih =>
    obtain ⟨hkey, hword⟩ := List.forall_mem_cons.mp hword
    have hnext : UInt32.ofNat (col + 1) = UInt32.ofNat col + 1 := UInt32.ofNat_add ..
    have htyped := step_characterEvent b clipboard key.1 hvisible hfits.firstRow hat
      (LineManager.eventFilter_typesInto hinto key.2.toLatin1)
    generalize hlm : s.dataman.typedInto (UInt32.ofNat col) (UInt32.ofNat n) i f key.2.toLatin1 = lm' at htyped
    have hat' : At (s.typed key.2 lm') n (col + 1) := hat.typed (ne_separator_of_le hkey.le) lm'
    have hfits' : (s.typed key.2 lm').Fits (word.map Prod.snd) := hfits.typed hat (ne_separator_of_le hkey.le) lm'
    have hback := ih hword (s := s.typed key.2 lm') (i := i) (f := f.withChar key.2.toLatin1 (UInt32.ofNat col)) hvisible hfits' hat'
      (hlm ▸ LineManager.indexed_typedInto hidx hinto _)
      (by rw [hnext]; exact hlm ▸ LineManager.typesInto_next (hidx _) hinto _)
    obtain ⟨hedit, hremove⟩ := LineManager.removeCharacter_typedInto (hidx _) hinto key.2.toLatin1
    rw [← hnext, hlm] at hedit hremove
    have hlast := step_backspaceEvent (s := s.typed key.2 lm') b clipboard hvisible hfits'.firstRow hat'
      (by rw [position_typed]; exact Nat.succ_ne_zero _) hedit hremove
    have hsplit : typing clipboard (key :: word) ++ erasing clipboard (key :: word) =
        .event (characterEvent key.1 key.2) clipboard :: (typing clipboard word ++ erasing clipboard word ++
          [.event backspaceEvent clipboard]) := by
      rw [typing, erasing, List.length_cons, List.replicate_succ', List.map_cons, List.cons_append, ← List.append_assoc]
      rfl
    rw [hsplit, run_cons, htyped, run_append, hback, run_cons, run_nil, hlast, edit_typed hat.selection]

/-! ### In a session -/

/-- An action changes the structure by one operation or not at all. -/
theorem act_keeps (b : Build) (fromUtf8 : FromUtf8) (s : Sheet) (action : Action) :
    (s.act b fromUtf8 action).visible = s.visible ∧
      ((s.act b fromUtf8 action).dataman = s.dataman ∨ ∃ op, (s.act b fromUtf8 action).dataman = s.dataman.step op) := by
  rcases action with (⟨anchor, position⟩ | layout | ⟨event, clipboard⟩) | c
  · exact ⟨rfl, .inl rfl⟩
  · exact ⟨rfl, .inl rfl⟩
  · cases hfilter : PlainEditor.eventFilter b s.view s.dataman event with
    | error e =>
      have hended : s.act b fromUtf8 (.input (.event event clipboard)) = s := by
        simp only [act, step, handle, hfilter, bind, Except.bind]
      rw [hended]
      exact ⟨rfl, .inl rfl⟩
    | ok r =>
      have hop : r.dataman = s.dataman ∨ ∃ op, r.dataman = s.dataman.step op := by
        rcases PlainEditor.eventFilter_guarded hfilter with hsame | ⟨op, -, happly⟩
        · exact .inl hsame
        · exact .inr ⟨op, (LineManager.step_of_apply happly).symm⟩
      simp only [act, step, handle, hfilter, bind, Except.bind, pure, Except.pure]
      by_cases hanswer : r.answer = true
      · rw [if_pos hanswer]
        split_ifs <;> exact ⟨rfl, hop⟩
      · rw [if_neg hanswer]
        obtain ⟨hvisible, hdataman, -⟩ := widget_keeps { s with dataman := r.dataman } event clipboard
        exact ⟨hvisible, by rwa [hdataman]⟩
  · obtain ⟨hvisible, hsame | ⟨type, str, col, line, hadds, hcall⟩⟩ := call_cases fromUtf8 s c
    · exact ⟨hvisible, .inl hsame⟩
    · refine ⟨hvisible, .inr ?_⟩
      cases c with
      | title str' =>
        cases hadds
        have happly : s.dataman.apply (.addTitle str col line) = _ := hcall
        exact ⟨_, (LineManager.step_of_apply happly).symm⟩
      | name str' =>
        cases hadds
        have happly : s.dataman.apply (.addName str col line) = _ := hcall
        exact ⟨_, (LineManager.step_of_apply happly).symm⟩
      | jumpLine | lineCount | write str' => cases hadds

/-- In every session positions are indices, and a visible editor stays visible. -/
theorem run_act_keeps (b : Build) (fromUtf8 : FromUtf8) (layout : TextLayout) (actions : List Action) :
    let s := run (act b fromUtf8) (fresh true layout) actions
    s.visible = true ∧ ∀ line, Indexed (s.dataman.fields line) := by
  refine run_inv (fun s : Sheet => s.visible = true ∧ ∀ line, Indexed (s.dataman.fields line)) ?_ actions ⟨rfl, fun line => ?_⟩
  · rintro s action ⟨hvisible, hidx⟩
    obtain ⟨hkept, hsame | ⟨op, hop⟩⟩ := act_keeps b fromUtf8 s action
    · exact ⟨hkept.trans hvisible, hsame ▸ hidx⟩
    · refine ⟨hkept.trans hvisible, ?_⟩
      rw [hop]
      exact LineManager.fields_step_inv Indexed (fun _ hbefore => LineManager.indexed_fieldsStep hbefore) hidx
  · rw [show (fresh true layout).dataman.fields line = [] from LineManager.fields_empty line]
    exact nofun

theorem at_cursor (hselection : s.anchor = s.position) : At s s.cursor.position.blockNumber s.cursor.position.column :=
  ⟨hselection, rfl, rfl⟩

/-- After any session: a word that is typed into a field and then erased character by character leaves the editor as it
was, the text, the cursor and the structure, if no field made earlier has one of the columns on the way and the cursor stays
in the first visual line of its line. -/
theorem word_erased {fromUtf8 : FromUtf8} (layout : TextLayout) (actions : List Action) (word : List (Nat × QChar)) :
    let s := run (act b fromUtf8) (fresh true layout) actions
    ∀ (i : Nat) (f : Field), s.anchor = s.position → (∀ key ∈ word, Printable key.2) → s.Fits (word.map Prod.snd) →
      TypesInto (s.dataman.fields (UInt32.ofNat s.cursor.position.blockNumber))
        (UInt32.ofNat s.cursor.position.column) word.length i f →
      run (step b) s (typing clipboard word ++ erasing clipboard word) = s := by
  intro s i f hselection hword hfits hinto
  obtain ⟨hvisible, hidx⟩ := run_act_keeps b fromUtf8 layout actions
  exact run_typing_erasing word hword hvisible hfits (at_cursor hselection) hidx hinto

/-- The name `ab`, with the cursor between the letters. -/
def nameAndPlace : List Action := [.call (.name [0x61, 0x62]), .input (.select 1 1)]

theorem fields_nameAndPlace :
    let s := run (act ⟨false, none⟩ (List.map UInt8.toUInt16)) (fresh true .unwrapped) nameAndPlace
    s.dataman.fields (UInt32.ofNat s.cursor.position.blockNumber) = [.newString .name 0 0 [0x61, 0x62]] ∧
      s.cursor.position.column = 1 ∧ s.anchor = s.position := by
  decide +kernel

theorem word_erased_name :
    let s := run (act ⟨false, none⟩ (List.map UInt8.toUInt16)) (fresh true .unwrapped) nameAndPlace
    run (step ⟨false, none⟩) s (typing [] [(0x58, 0x78), (0x59, 0x79)] ++ erasing [] [(0x58, 0x78), (0x59, 0x79)]) = s := by
  obtain ⟨hfields, hcolumn, hselection⟩ := fields_nameAndPlace
  refine word_erased .unwrapped nameAndPlace [(0x58, 0x78), (0x59, 0x79)] 0 (.newString .name 0 0 [0x61, 0x62]) hselection
    (by decide) (fun _ _ => rfl) ?_
  rw [hfields, hcolumn]
  exact ⟨⟨rfl, by decide +kernel, fun _ _ hj => absurd hj (Nat.not_lt_zero _)⟩, nofun, by decide +kernel,
    fun _ _ _ _ hj => absurd hj (Nat.not_lt_zero _), by decide +kernel⟩

/-- After any session, in the first visual line of a line: a character that changes the structure and is then erased leaves
the editor as it was exactly when it went into a field, and no field made earlier has the column behind it. -/
theorem erased_iff {fromUtf8 : FromUtf8} (layout : TextLayout) (actions : List Action) (code : Nat) (c : QChar) :
    let s := run (act b fromUtf8) (fresh true layout) actions
    let fields := s.dataman.fields (UInt32.ofNat s.cursor.position.blockNumber)
    let col := UInt32.ofNat s.cursor.position.column
    s.anchor = s.position → Printable c → s.Fits [c] → (∀ g ∈ fields, g.mEnd.toNat + 1 < 2 ^ 32) →
      (s.step b (.event (characterEvent code c) clipboard)).dataman ≠ s.dataman →
      (run (step b) s [.event (characterEvent code c) clipboard, .event backspaceEvent clipboard] = s ↔
        ∃ i f, FirstAt fields col i f ∧ ∀ (j : Nat) g, j < i → fields[j]? = some g → g.atRange (col + 1) = false) := by
  intro s fields col hselection hc hfits hroom hchanged
  obtain ⟨hvisible, hidx⟩ := run_act_keeps b fromUtf8 layout actions
  have hat := at_cursor hselection
  obtain ⟨lm', hcall⟩ := eventFilter_of_changed hvisible hfits.firstRow hat hchanged
  have hstep := step_characterEvent b clipboard code hvisible hfits.firstRow hat hcall
  have hfits' : (s.typed c lm').Fits [] := hfits.typed hat (ne_separator_of_le hc.le) lm'
  have hne : lm' ≠ s.dataman := fun heq => hchanged (by rw [hstep]; exact heq)
  have hat' : At (s.typed c lm') _ (s.cursor.position.column + 1) := hat.typed (ne_separator_of_le hc.le) lm'
  have hnext : UInt32.ofNat (s.cursor.position.column + 1) = col + 1 := UInt32.ofNat_add ..
  rw [← LineManager.removeCharacter_back_iff (hidx _) hroom hcall hne, run_cons, hstep, run_cons, run_nil]
  have hfilter := eventFilter_backspaceEvent (s := s.typed c lm') (b := b) hvisible hfits'.firstRow hat'
  rw [hnext] at hfilter
  by_cases hedit : lm'.isEditable (col + 1) (UInt32.ofNat s.cursor.position.blockNumber) = true
  · obtain ⟨lm'', hremove⟩ : ∃ lm'', lm'.removeCharacter (col + 1) (UInt32.ofNat s.cursor.position.blockNumber) = .ok lm'' := by
      rcases lm'.removeCharacter_cases (col + 1) (UInt32.ofNat s.cursor.position.blockNumber) with ⟨h, -⟩ | ⟨_, _, -, -, h⟩ <;>
        exact ⟨_, h⟩
    have hback := step_backspaceEvent (s := s.typed c lm') b clipboard hvisible hfits'.firstRow hat'
      (by rw [position_typed]; exact Nat.succ_ne_zero _) (hnext ▸ hedit) (hnext ▸ hremove)
    rw [hback, and_iff_right hedit, hremove]
    constructor
    · intro heq
      exact congrArg Except.ok (congrArg dataman heq)
    · intro heq
      cases heq
      exact edit_typed hselection c lm'
  · rw [Bool.not_eq_true] at hedit
    have hstop : (s.typed c lm').step b (.event backspaceEvent clipboard) = s.typed c lm' := by
      rw [backspaceEvent, step_keyPress (hfilter.trans (if_pos hedit)) rfl]
      rfl
    rw [hstop, hedit]
    exact iff_of_false (fun heq => hne (congrArg dataman heq)) fun h => Bool.noConfusion h.1

theorem erased_iff_name :
    let s := run (act ⟨false, none⟩ (List.map UInt8.toUInt16)) (fresh true .unwrapped) nameAndPlace
    let fields := s.dataman.fields (UInt32.ofNat s.cursor.position.blockNumber)
    let col := UInt32.ofNat s.cursor.position.column
    run (step ⟨false, none⟩) s [.event (characterEvent 0x58 0x78) [], .event backspaceEvent []] = s ↔
      ∃ i f, FirstAt fields col i f ∧ ∀ (j : Nat) g, j < i → fields[j]? = some g → g.atRange (col + 1) = false := by
  obtain ⟨hfields, hcolumn, hselection⟩ := fields_nameAndPlace
  refine erased_iff .unwrapped nameAndPlace 0x58 0x78 hselection (by decide) (fun _ _ => rfl) ?_ ?_
  · rw [hfields]
    decide +kernel
  · intro hsame
    have hlength := congrArg (fun lm : LineManager => (lm.fields 0).map (·.mInfo.length)) hsame
    revert hlength
    decide +kernel

end

end Sheet

end MetaEditor
