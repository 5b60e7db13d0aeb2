import MetaEditor.Data.Removal
import MetaEditor.Editor.Insertion
import MetaEditor.Lib.Spelling

/-!
# Line breaks and joins

Enter, and the break that `moveToNextLine` makes in the last line, split a document line and move the
lines below down. Backspace in column 0 and Delete at the end of a line join two lines and move the lines
below up. The structure is keyed by line numbers and none of these events renumbers it, so that a field
below the edit is looked up beside another document line than before. When the line is wrapped, Delete at
its end passes a column counted from its last visual line, which is one further left, and can take a character
out of the structure that stays in the document.
-/

namespace MetaEditor

open Lib

namespace Document

variable {d : Document}

/-- The text of the lines before a line, and behind it. -/
def textBefore (lines : List (List QChar)) : List QChar := lines.flatMap fun line => line ++ [separator]
def textBehind (lines : List (List QChar)) : List QChar := lines.flatMap fun line => separator :: line

theorem plain_middle (before after : List (List QChar)) (row : List QChar) :
    plain (before ++ row :: after) = textBefore before ++ row ++ textBehind after := by
  induction before with
  | nil =>
    induction after generalizing row with
    | nil => simp [plain, textBefore, textBehind]
    | cons next after ih =>
      have hnext := ih next
      simp only [List.nil_append] at hnext
      rw [List.nil_append, plain_cons_cons, hnext]
      simp [textBefore, textBehind]
  | cons first before ih =>
    obtain ⟨next, rest, hrest⟩ : ∃ next rest, before ++ row :: after = next :: rest := by cases before <;> exact ⟨_, _, rfl⟩
    rw [List.cons_append, hrest, plain_cons_cons, ← hrest, ih]
    simp [textBefore]

theorem length_textBefore_take {n : Nat} (d : Document) : (textBefore (d.take n)).length = d.offset n := by
  simp [textBefore, offset, List.length_flatMap]

theorem Place.split (p : Place d) : d = d.take p.blockNumber ++ p.block :: d.drop (p.blockNumber + 1) := by
  obtain ⟨hlt, hget⟩ := List.getElem?_eq_some_iff.mp p.hblock
  rw [← hget, ← List.drop_eq_getElem_cons hlt, List.take_append_drop]

theorem Place.plain_split (p : Place d) :
    d.plain = textBefore (d.take p.blockNumber) ++ p.block ++ textBehind (d.drop (p.blockNumber + 1)) := by
  conv => lhs; rw [p.split]
  exact plain_middle _ _ _

/-- The text up to a place. -/
theorem Place.take_plain (p : Place d) :
    d.plain.take p.position = textBefore (d.take p.blockNumber) ++ p.block.take p.column := by
  rw [p.plain_split, Place.position, ← length_textBefore_take, List.append_assoc, List.take_length_add_append,
    List.take_append_of_le_length p.hcolumn]

/-- The text from a place on. -/
theorem Place.drop_plain (p : Place d) :
    d.plain.drop p.position = p.block.drop p.column ++ textBehind (d.drop (p.blockNumber + 1)) := by
  rw [p.plain_split, Place.position, ← length_textBefore_take, List.append_assoc, List.drop_length_add_append,
    List.drop_append_of_le_length p.hcolumn]

/-! ### Splitting and joining -/

/-- A change of the lines: the text between two places is taken out, and a line break goes in or not. -/
inductive LineChange (d : Document)
  | split (p q : Place d)
  | join (p q : Place d)

namespace LineChange

/-- The lines afterwards. -/
def apply : LineChange d → Document
  | split p q =>
    d.take p.blockNumber ++ p.block.take p.column :: q.block.drop q.column :: d.drop (q.blockNumber + 1)
  | join p q => d.take p.blockNumber ++ (p.block.take p.column ++ q.block.drop q.column) :: d.drop (q.blockNumber + 1)

/-- The change as an edit of the text. -/
def edit : LineChange d → Splice QChar
  | split p q => { start := p.position, stop := q.position, text := [separator] }
  | join p q => { start := p.position, stop := q.position, text := [] }

theorem plain_apply (change : LineChange d) : change.edit.apply d.plain = plain change.apply := by
  cases change with
  | split p q =>
    have hlines : (split p q).apply =
        (d.take p.blockNumber ++ [p.block.take p.column]) ++ q.block.drop q.column :: d.drop (q.blockNumber + 1) := by
      simp [apply]
    rw [hlines, plain_middle, edit, Splice.apply, p.take_plain, q.drop_plain]
    simp [textBefore]
  | join p q =>
    rw [apply, plain_middle, edit, Splice.apply, p.take_plain, q.drop_plain]
    simp

theorem length_take (p : Place d) : (d.take p.blockNumber).length = p.blockNumber :=
  List.length_take_of_le (List.getElem?_eq_some_iff.mp p.hblock).1.le

/-- The first line that a change touches, and those before it. -/
theorem getElem?_apply_of_lt {p q : Place d} {n : Nat} (h : n < p.blockNumber) :
    (split p q).apply[n]? = d[n]? ∧ (join p q).apply[n]? = d[n]? := by
  have htake := length_take p
  constructor <;>
    rw [apply, List.getElem?_append_left (by omega), List.getElem?_take_of_lt h]

theorem getElem?_split_self (p q : Place d) : (split p q).apply[p.blockNumber]? = some (p.block.take p.column) := by
  have htake := length_take p
  rw [apply, List.getElem?_append_right htake.le, htake, Nat.sub_self]
  rfl

theorem getElem?_split_succ (p q : Place d) :
    (split p q).apply[p.blockNumber + 1]? = some (q.block.drop q.column) := by
  have htake := length_take p
  rw [apply, List.getElem?_append_right (by omega), htake, Nat.add_sub_cancel_left]
  rfl

theorem getElem?_split_of_lt {p q : Place d} {n : Nat} (h : p.blockNumber + 1 < n) :
    (split p q).apply[n]? = d[n + q.blockNumber - p.blockNumber - 1]? := by
  have htake := length_take p
  obtain ⟨k, rfl⟩ := Nat.exists_eq_add_of_le h
  rw [apply, List.getElem?_append_right (by omega), htake,
    show p.blockNumber + 1 + 1 + k - p.blockNumber = k + 1 + 1 by omega, List.getElem?_cons_succ,
    List.getElem?_cons_succ, List.getElem?_drop]
  congr 1
  omega

theorem getElem?_join_self (p q : Place d) :
    (join p q).apply[p.blockNumber]? = some (p.block.take p.column ++ q.block.drop q.column) := by
  have htake := length_take p
  rw [apply, List.getElem?_append_right htake.le, htake, Nat.sub_self]
  rfl

theorem getElem?_join_of_lt {p q : Place d} {n : Nat} (h : p.blockNumber < n) :
    (join p q).apply[n]? = d[n + q.blockNumber - p.blockNumber]? := by
  have htake := length_take p
  obtain ⟨k, rfl⟩ := Nat.exists_eq_add_of_le (Nat.succ_le_of_lt h)
  rw [apply, List.getElem?_append_right (by omega), htake,
    show p.blockNumber.succ + k - p.blockNumber = k + 1 by omega, List.getElem?_cons_succ, List.getElem?_drop]
  congr 1
  omega

end LineChange

end Document

/-! ### The structure beside the lines -/

open Document

variable {d : Document} {decode : Bytes → List QChar} {lm : LineManager}

/-- The line shows the text of the field at its columns. -/
structure ShownIn (decode : Bytes → List QChar) (f : Field) (row : List QChar) : Prop where
  size : f.mEnd.toNat = f.mStart.toNat + (decode f.mInfo).length
  text : SpelledAt (decode f.mInfo) row f.mStart.toNat

/-- Every field is shown by the document line of its own number. -/
def AllShown (decode : Bytes → List QChar) (lm : LineManager) (d : Document) : Prop :=
  ∀ line, ∀ f ∈ lm.fields line, ∃ row, d[line.toNat]? = some row ∧ ShownIn decode f row

/-- The text of a field stands in a line of the document, if there is such a line. -/
def SpelledIn (decode : Bytes → List QChar) (f : Field) (row? : Option (List QChar)) : Prop :=
  ∃ row, row? = some row ∧ SpelledAt (decode f.mInfo) row f.mStart.toNat

/-- A split allows the fields that end before it, and below it those that are also spelled in the old line
that takes their number; a join likewise. -/
def Allows (decode : Bytes → List QChar) (lm : LineManager) : LineChange d → Prop
  | .split p q => ∀ line, ∀ f ∈ lm.fields line,
      (line.toNat = p.blockNumber → decode f.mInfo = [] ∨ f.mEnd.toNat ≤ p.column) ∧
      (line.toNat = p.blockNumber + 1 → SpelledAt (decode f.mInfo) q.block (q.column + f.mStart.toNat)) ∧
      (p.blockNumber + 1 < line.toNat →
        SpelledIn decode f d[line.toNat + q.blockNumber - p.blockNumber - 1]?)
  | .join p q => ∀ line, ∀ f ∈ lm.fields line, p.blockNumber < line.toNat →
      SpelledIn decode f d[line.toNat + q.blockNumber - p.blockNumber]?

/-- The size of a field does not change, and there is always its text to be found. -/
theorem exists_shownIn_iff {f : Field} {row : List QChar} (h : ShownIn decode f row) (row? : Option (List QChar)) :
    (∃ row', row? = some row' ∧ ShownIn decode f row') ↔ SpelledIn decode f row? :=
  exists_congr fun _ => and_congr_right fun _ => ⟨ShownIn.text, fun ht => ⟨h.size, ht⟩⟩

theorem spelledIn_some {f : Field} {row : List QChar} :
    SpelledIn decode f (some row) ↔ SpelledAt (decode f.mInfo) row f.mStart.toNat := by
  simp [SpelledIn]

section OneField

variable {p q : Place d} {f : Field} {n : Nat} {row : List QChar}

/-- One field after a split. -/
theorem spelledIn_split_iff (hrow : d[n]? = some row) (h : ShownIn decode f row) :
    SpelledIn decode f (LineChange.split p q).apply[n]? ↔
      (n = p.blockNumber → decode f.mInfo = [] ∨ f.mEnd.toNat ≤ p.column) ∧
      (n = p.blockNumber + 1 → SpelledAt (decode f.mInfo) q.block (q.column + f.mStart.toNat)) ∧
      (p.blockNumber + 1 < n → SpelledIn decode f d[n + q.blockNumber - p.blockNumber - 1]?) := by
  rcases lt_trichotomy n p.blockNumber with hlt | rfl | hlt
  · rw [(LineChange.getElem?_apply_of_lt hlt).1, hrow, spelledIn_some]
    exact iff_of_true h.text ⟨fun heq => by omega, fun heq => by omega, fun hgt => by omega⟩
  · have hblock : row = p.block := Option.some.inj (hrow.symm.trans p.hblock)
    have htext := h.text
    rw [hblock] at htext
    rw [LineChange.getElem?_split_self, spelledIn_some, spelledAt_take_iff htext, ← h.size]
    exact ⟨fun ht => ⟨fun _ => ht, fun heq => by omega, fun hgt => by omega⟩, fun hall => hall.1 rfl⟩
  · by_cases hsucc : n = p.blockNumber + 1
    · rw [hsucc, LineChange.getElem?_split_succ, spelledIn_some, spelledAt_drop_iff]
      exact ⟨fun ht => ⟨fun heq => by omega, fun _ => ht, fun hgt => by omega⟩, fun hall => hall.2.1 rfl⟩
    · have hgt : p.blockNumber + 1 < n := by omega
      rw [LineChange.getElem?_split_of_lt hgt]
      exact ⟨fun ht => ⟨fun heq => by omega, fun heq => by omega, fun _ => ht⟩, fun hall => hall.2.2 hgt⟩

/-- One field after a join at the end of a line. -/
theorem spelledIn_join_iff (hend : p.column = p.block.length) (hrow : d[n]? = some row) (h : ShownIn decode f row) :
    SpelledIn decode f (LineChange.join p q).apply[n]? ↔
      (p.blockNumber < n → SpelledIn decode f d[n + q.blockNumber - p.blockNumber]?) := by
  rcases lt_trichotomy n p.blockNumber with hlt | rfl | hlt
  · rw [(LineChange.getElem?_apply_of_lt hlt).2, hrow, spelledIn_some]
    exact iff_of_true h.text fun hgt => by omega
  · have hblock : row = p.block := Option.some.inj (hrow.symm.trans p.hblock)
    have htext := h.text
    rw [hblock] at htext
    rw [LineChange.getElem?_join_self, spelledIn_some, hend, List.take_length]
    exact iff_of_true (spelledAt_append htext) fun hgt => by omega
  · rw [LineChange.getElem?_join_of_lt hlt]
    exact ⟨fun ht _ => ht, fun hall => hall hlt⟩

end OneField

/-- A join begins at the end of a line. -/
def Document.LineChange.Whole : LineChange d → Prop
  | .split _ _ => True
  | .join p _ => p.column = p.block.length

/-- What a change of the lines alone does. -/
theorem allShown_apply_iff {change : LineChange d} (hwhole : change.Whole) (h : AllShown decode lm d) :
    AllShown decode lm change.apply ↔ Allows decode lm change := by
  cases change with
  | split p q =>
    refine forall_congr' fun line => forall_congr' fun f => forall_congr' fun hf => ?_
    obtain ⟨row, hrow, hshown⟩ := h line f hf
    rw [exists_shownIn_iff hshown]
    exact spelledIn_split_iff hrow hshown
  | join p q =>
    refine forall_congr' fun line => forall_congr' fun f => forall_congr' fun hf => ?_
    obtain ⟨row, hrow, hshown⟩ := h line f hf
    rw [exists_shownIn_iff hshown]
    exact spelledIn_join_iff hwhole hrow hshown

/-! ### Delete at the end of a wrapped line -/

/-- `removeCharacter` at the column takes a character out of the field. -/
structure ErasesAt (fields : List Field) (col : UInt32) (i : Nat) (f : Field) : Prop where
  first : FirstAt fields col i f
  stored : (col - 1 - f.mStart).toNat ≤ f.mInfo.length

/-- A character can be taken out there, and none in the document: the text of the field without it reads like the text
without its last character, and what was put in the line later is also spelled one column further left. -/
def AllowsErasure (decode : Bytes → List QChar) (fields : List Field) (row : List QChar) (col : UInt32) : Prop :=
  ∀ i f, ErasesAt fields col i f →
    decode (f.mInfo.eraseIdx (col - 1 - f.mStart).toNat) = (decode f.mInfo).dropLast ∧
    ∀ (j : Nat) g, i < j → fields[j]? = some g →
      decode g.mInfo = [] ∨ (0 < g.mStart.toNat ∧ SpelledAt (decode g.mInfo) row (g.mStart.toNat - 1))

section Erased

variable {fields : List Field} {row rest : List QChar} {col : UInt32} {i : Nat} {f g : Field}

/-- What is spelled in a row and no more than that. -/
theorem spelledAt_append_iff {text : List QChar} {n : Nat} (h : text = [] ∨ n + text.length ≤ row.length) :
    SpelledAt text (row ++ rest) n ↔ SpelledAt text row n := by
  refine ⟨fun hlong => ?_, spelledAt_append⟩
  have htake := (spelledAt_take_iff (n := row.length) hlong).mpr h
  rwa [List.take_left] at htake

/-- The field that has lost a character. -/
theorem shownIn_withoutChar_iff (rest : List QChar) (h : ShownIn decode f row) (hin : f.atRange col = true) (hne : col ≠ f.mStart) :
    ShownIn decode (f.withoutChar (col - 1)) (row ++ rest) ↔
      decode (f.mInfo.eraseIdx (col - 1 - f.mStart).toNat) = (decode f.mInfo).dropLast := by
  obtain ⟨hlow, hhigh⟩ := Field.atRange_eq_true.mp hin
  rw [UInt32.le_iff_toNat_le] at hlow hhigh
  have hcol : col.toNat ≠ f.mStart.toNat := fun heq => hne (UInt32.toNat_inj.mp heq)
  have hsize := h.size
  have hend : (f.mEnd - 1).toNat = f.mEnd.toNat - 1 := toNat_sub_one (by omega)
  have hinfo : (f.withoutChar (col - 1)).mInfo = f.mInfo.eraseIdx (col - 1 - f.mStart).toNat :=
    (List.eraseIdx_eq_take_drop_succ ..).symm
  have hlast : (decode f.mInfo).dropLast <+: (row ++ rest).drop f.mStart.toNat :=
    (List.dropLast_prefix _).trans (spelledAt_append h.text)
  constructor
  · intro ⟨hsize', htext'⟩
    rw [hinfo] at hsize' htext'
    have hlength : (decode (f.mInfo.eraseIdx (col - 1 - f.mStart).toNat)).length = (decode f.mInfo).dropLast.length := by
      have hsame : (f.mEnd - 1).toNat = f.mStart.toNat + (decode (f.mInfo.eraseIdx (col - 1 - f.mStart).toNat)).length :=
        hsize'
      rw [List.length_dropLast]
      omega
    exact (List.prefix_of_prefix_length_le htext' hlast hlength.le).eq_of_length hlength
  · intro hsame
    refine ⟨?_, ?_⟩
    · rw [hinfo, hsame, List.length_dropLast]
      show (f.mEnd - 1).toNat = f.mStart.toNat + _
      omega
    · rw [hinfo, hsame]
      exact hlast

/-- A field that was moved to the left. -/
theorem shownIn_shiftLeft_iff (h : ShownIn decode g row) :
    ShownIn decode g.shiftLeft (row ++ rest) ↔
      decode g.mInfo = [] ∨ (0 < g.mStart.toNat ∧ SpelledAt (decode g.mInfo) row (g.mStart.toNat - 1)) := by
  have hsize := h.size
  by_cases hnil : decode g.mInfo = []
  · rw [hnil, List.length_nil] at hsize
    have hsame : g.mEnd = g.mStart := UInt32.toNat_inj.mp hsize
    refine iff_of_true ⟨?_, ?_⟩ (.inl hnil)
    · rw [Field.shiftLeft_mEnd, Field.shiftLeft_mStart, Field.shiftLeft_mInfo, hnil, hsame]
      rfl
    · rw [Field.shiftLeft_mInfo, hnil]
      exact spelledAt_nil
  · have hpos := List.length_pos_iff.mpr hnil
    have hend := h.text.end_le hnil
    rw [or_iff_right hnil]
    by_cases hzero : g.mStart.toNat = 0
    · have hstart : g.mStart = 0 := UInt32.toNat_inj.mp hzero
      have hshifted : (g.mStart - 1).toNat = 2 ^ 32 - 1 := by rw [hstart]; rfl
      refine iff_of_false (fun hshown => ?_) fun hboth => absurd hboth.1 (by omega)
      have hwide : (g.mEnd - 1).toNat = (g.mStart - 1).toNat + (decode g.mInfo).length := hshown.size
      have hlt := (g.mEnd - 1).toNat_lt
      omega
    · have hstart : (g.mStart - 1).toNat = g.mStart.toNat - 1 := toNat_sub_one (by omega)
      have hstop : (g.mEnd - 1).toNat = g.mEnd.toNat - 1 := toNat_sub_one (by omega)
      have hspelled : SpelledAt (decode g.mInfo) (row ++ rest) (g.mStart.toNat - 1) ↔
          SpelledAt (decode g.mInfo) row (g.mStart.toNat - 1) := spelledAt_append_iff (.inr (by omega))
      rw [← hspelled, ← hstart, and_iff_right (show 0 < g.mStart.toNat by omega)]
      refine ⟨ShownIn.text, fun htext => ⟨?_, htext⟩⟩
      show (g.mEnd - 1).toNat = (g.mStart - 1).toNat + (decode g.mInfo).length
      omega

/-- The fields of the line, when what is behind it comes up to it. -/
theorem shownIn_erased_iff (hidx : Indexed fields) (hshown : ∀ g ∈ fields, ShownIn decode g row)
    (herases : ErasesAt fields col i f) (hne : col ≠ f.mStart) :
    (∀ g ∈ Line.shiftFrom (f.mPosition + 1) Field.shiftLeft (fields.set i (f.withoutChar (col - 1))),
        ShownIn decode g (row ++ rest)) ↔ AllowsErasure decode fields row col := by
  have hfirst := herases.first
  have hedit := shownIn_withoutChar_iff rest (hshown f hfirst.mem) hfirst.inRange hne
  rw [hidx i f hfirst.get]
  constructor
  · intro hall i' f' herases'
    obtain ⟨rfl, rfl⟩ := hfirst.unique herases'.first
    refine ⟨hedit.mp (hall _ (List.mem_of_getElem? ((Line.getElem?_edit hfirst.lt).mpr (.inr (.inl ⟨rfl, rfl⟩))))), ?_⟩
    intro j g hj hg
    refine (shownIn_shiftLeft_iff (hshown g (List.mem_of_getElem? hg))).mp (hall _ (List.mem_of_getElem? (i := j) ?_))
    exact (Line.getElem?_edit hfirst.lt).mpr (.inr (.inr ⟨hj, g, hg, rfl⟩))
  · intro hallows g' hg'
    obtain ⟨herased, hbehind⟩ := hallows i f herases
    obtain ⟨j, hj⟩ := List.mem_iff_getElem?.mp hg'
    rcases (Line.getElem?_edit hfirst.lt).mp hj with ⟨-, hg⟩ | ⟨-, rfl⟩ | ⟨hlt, g, hg, rfl⟩
    · have hold := hshown g' (List.mem_of_getElem? hg)
      exact ⟨hold.size, spelledAt_append hold.text⟩
    · exact hedit.mpr herased
    · exact (shownIn_shiftLeft_iff (hshown g (List.mem_of_getElem? hg))).mpr (hbehind j g hlt hg)

end Erased

/-! ### The events -/

/-- The place of `selectionEnd`. -/
def Document.Cursor.ending (c : Cursor d) : Place d :=
  if c.anchor.position ≤ c.position.position then c.position else c.anchor

theorem Document.Cursor.position_ending (c : Cursor d) : c.ending.position = c.selectionEnd := by
  unfold ending selectionEnd
  split_ifs with h
  · exact (max_eq_right h).symm
  · exact (max_eq_left (by omega)).symm

namespace PlainEditor

/-- An event that splits or joins lines, the structure after it, and what the widget does to the lines. The
input is a key that is let through, or none for a call of `moveToNextLine` in the last line. -/
inductive LineEvent (b : Build) (layout : TextLayout) (lm : LineManager) (c : Cursor d) :
    Option KeyEvent → LineManager → LineChange d → Prop
  | enter {keyEvent : KeyEvent} {r : Filtered} (hkey : keyEvent.key = .enter ∨ keyEvent.key = .return)
      (hfilter : eventFilter b (c.viewIn layout) lm (.keyPress keyEvent) = .ok r) (hlet : r.answer = false) :
      LineEvent b layout lm c (some keyEvent) r.dataman (.split c.landing c.ending)
  | nextLine (hlast : d[c.position.blockNumber + 1]? = none) : LineEvent b layout lm c none lm (.split c.landing c.ending)
  | backspace {keyEvent : KeyEvent} {r : Filtered} {p : Place d} (hkey : keyEvent.key = .backspace)
      (hsel : c.NoSelection) (hzero : c.position.column = 0) (hp : p.blockNumber + 1 = c.position.blockNumber)
      (hend : p.column = p.block.length) (hfilter : eventFilter b (c.viewIn layout) lm (.keyPress keyEvent) = .ok r)
      (hlet : r.answer = false) : LineEvent b layout lm c (some keyEvent) r.dataman (.join p c.position)
  | delete {keyEvent : KeyEvent} {r : Filtered} {q : Place d} (hkey : keyEvent.key = .delete)
      (hsel : c.NoSelection) (hend : c.position.column = c.position.block.length)
      (hq : q.blockNumber = c.position.blockNumber + 1) (hzero : q.column = 0)
      (hfilter : eventFilter b (c.viewIn layout) lm (.keyPress keyEvent) = .ok r) (hlet : r.answer = false) :
      LineEvent b layout lm c (some keyEvent) r.dataman (.join c.position q)

/-- What the widget does to the text: `insertBlock` replaces the selection. -/
def textEdit (clipboard : List QChar) (c : Cursor d) : Option KeyEvent → Splice QChar
  | some keyEvent => d.widgetEdit c clipboard keyEvent
  | none => insertText c [separator]

variable {b : Build} {layout : TextLayout} {c : Cursor d} {input : Option KeyEvent} {lm' : LineManager} {change : LineChange d}

theorem LineEvent.whole (h : LineEvent b layout lm c input lm' change) : change.Whole := by
  cases h with
  | enter _ _ _ => trivial
  | nextLine _ => trivial
  | backspace _ _ _ _ hend _ _ => exact hend
  | delete _ _ hend _ _ _ _ => exact hend

/-- A line ends one position before the next one begins. -/
theorem position_succ {p q : Place d} (hend : p.column = p.block.length) (hzero : q.column = 0)
    (hnext : q.blockNumber = p.blockNumber + 1) : q.position = p.position + 1 := by
  rw [Place.position, Place.position, hzero, hend, hnext, offset_succ p.hblock, Nat.add_zero]

/-- The change of the lines is the widget's edit of the text. -/
theorem LineEvent.edit_eq (h : LineEvent b layout lm c input lm' change) (clipboard : List QChar) :
    textEdit clipboard c input = change.edit := by
  cases h with
  | enter hkey _ _ =>
    rw [LineChange.edit, c.position_landing, c.position_ending, textEdit, widgetEdit]
    rcases hkey with hkey | hkey <;> rw [hkey]
  | nextLine _ => rw [LineChange.edit, c.position_landing, c.position_ending, textEdit, insertText]
  | @backspace keyEvent _ p hkey hsel hzero hp hend _ _ =>
    have hposition : c.position.position = p.position + 1 := position_succ hend hzero hp.symm
    rw [LineChange.edit, textEdit, widgetEdit, hkey]
    simp only [hsel.start, hsel.stop, if_true, hposition, Nat.add_sub_cancel]
  | @delete keyEvent _ q hkey hsel hend hq hzero _ _ =>
    have hposition : q.position = c.position.position + 1 := position_succ hend hzero hq
    have hle := q.position_le
    rw [LineChange.edit, textEdit, widgetEdit, hkey]
    simp only [hsel.start, hsel.stop, if_true, hposition]
    rw [min_eq_left (by omega)]

/-- In column 0 there is no character to remove. -/
theorem removeCharacter_zero (htext : LineManager.TextBelow (2 ^ 32 - 1) lm) (line : UInt32) :
    lm.removeCharacter 0 line = .ok lm := by
  refine LineManager.removeCharacter_first htext fun i f hfirst => ?_
  have hlow := (Field.atRange_eq_true.mp hfirst.inRange).1
  rw [UInt32.le_iff_toNat_le] at hlow
  exact (UInt32.toNat_inj.mp (Nat.le_zero.mp hlow)).symm

/-- A key with Ctrl changes nothing, and one without is handled by its case. -/
theorem dataman_of_ctrl {keyEvent : KeyEvent} {v : View} {r : Filtered} (handled : Except Failure Filtered)
    (hfilter : eventFilter b v lm (.keyPress keyEvent) = .ok r)
    (hcase : keyEvent.controlModifier = false → eventFilter b v lm (.keyPress keyEvent) = handled)
    (hsame : handled = .ok r → r.dataman = lm) : r.dataman = lm := by
  by_cases hctrl : keyEvent.controlModifier = true
  · rw [eventFilter, keyFilter, if_pos hctrl] at hfilter
    cases hfilter
    rfl
  · exact hsame ((hcase (by simpa using hctrl)).symm.trans hfilter)

/-- What an event asks of the line that it ends: only Delete without Ctrl takes something out of the structure. -/
def AllowsKey (decode : Bytes → List QChar) (lm : LineManager) (layout : TextLayout) (c : Cursor d) : Option KeyEvent → Prop
  | some keyEvent => keyEvent.key = .delete → keyEvent.controlModifier = false →
      AllowsErasure decode (lm.fields (currentLine (c.viewIn layout))) c.position.block (nextColumn (c.viewIn layout))
  | none => True

/-- Enter, a break from a script and Backspace do not change the structure. -/
theorem LineEvent.unchanged (h : LineEvent b layout lm c input lm' change) (htext : LineManager.TextBelow (2 ^ 32 - 1) lm)
    (hdelete : ∀ keyEvent, input = some keyEvent → keyEvent.key = .delete → keyEvent.controlModifier = true) : lm' = lm := by
  cases h with
  | @enter keyEvent r hkey hfilter hlet =>
    refine dataman_of_ctrl (enterKey (c.viewIn layout) lm) hfilter (fun hctrl => ?_) fun hcall =>
      (enterKey_letThrough hcall hlet).1
    rcases hkey with hkey | hkey <;> simp [eventFilter, keyFilter, hctrl, hkey]
  | nextLine _ => rfl
  | @backspace keyEvent r p hkey hsel hzero hp hend hfilter hlet =>
    refine dataman_of_ctrl (eraseKey (c.viewIn layout) lm (column (c.viewIn layout))) hfilter (fun hctrl => ?_) fun hcall => ?_
    · simp [eventFilter, keyFilter, hctrl, hkey]
    · have hremove := (eraseKey_letThrough hcall hlet).2.2
      have hcolumn : column (c.viewIn layout) = 0 := by
        rw [Cursor.viewIn_of_firstRow (c.firstRow_of_zero layout hzero), Cursor.column_view, hzero]
        rfl
      rw [hcolumn, removeCharacter_zero htext] at hremove
      exact (Except.ok.inj hremove).symm
  | @delete keyEvent r q hkey hsel hend hq hzero hfilter hlet =>
    rw [eventFilter, keyFilter, if_pos (hdelete keyEvent rfl hkey)] at hfilter
    cases hfilter
    rfl

/-- Delete at the end of a line calls `removeCharacter`. -/
theorem LineEvent.removed {keyEvent : KeyEvent} (h : LineEvent b layout lm c (some keyEvent) lm' change)
    (hkey : keyEvent.key = .delete) (hctrl : keyEvent.controlModifier = false) :
    lm.removeCharacter (nextColumn (c.viewIn layout)) (currentLine (c.viewIn layout)) = .ok lm' ∧
      ∃ q : Place d, change = .join c.position q ∧ c.position.column = c.position.block.length := by
  cases h with
  | enter hother _ _ => rcases hother with hother | hother <;> rw [hkey] at hother <;> cases hother
  | backspace hother _ _ _ _ _ _ =>
    rw [hkey] at hother
    cases hother
  | @delete _ r q _ hsel hend hq hzero hfilter hlet =>
    have hcase : eventFilter b (c.viewIn layout) lm (.keyPress keyEvent) =
        eraseKey (c.viewIn layout) lm (nextColumn (c.viewIn layout)) := by
      simp only [eventFilter, keyFilter, hctrl, hkey, Bool.false_eq_true, if_false]
    rw [hcase] at hfilter
    exact ⟨(eraseKey_letThrough hfilter hlet).2.2, q, rfl, hend⟩

theorem toNat_blockNumber (p : Place d) (hsize : d.plain.length < 2 ^ 31) :
    (UInt32.ofNat p.blockNumber).toNat = p.blockNumber := by
  have hle := p.blockNumber_le
  rw [UInt32.toNat_ofNat', Nat.mod_eq_of_lt (by omega)]

/-- Behind a line that Delete has ended the fields are as they were, in it they are what the removal left of them. -/
theorem allShown_removed_iff {p q : Place d} {col : UInt32} (hsize : d.plain.length < 2 ^ 31)
    (hend : p.column = p.block.length) (hshown : AllShown decode lm d)
    (hothers : ∀ line, line ≠ UInt32.ofNat p.blockNumber → lm'.fields line = lm.fields line)
    (hfields : (∀ g ∈ lm'.fields (UInt32.ofNat p.blockNumber), ShownIn decode g (p.block ++ q.block.drop q.column)) ↔
      AllowsErasure decode (lm.fields (UInt32.ofNat p.blockNumber)) p.block col) :
    AllShown decode lm' (LineChange.join p q).apply ↔
      Allows decode lm (.join p q) ∧ AllowsErasure decode (lm.fields (UInt32.ofNat p.blockNumber)) p.block col := by
  have hnumber := toNat_blockNumber p hsize
  have hjoined : (LineChange.join p q).apply[(UInt32.ofNat p.blockNumber).toNat]? = some (p.block ++ q.block.drop q.column) := by
    rw [hnumber, LineChange.getElem?_join_self, hend, List.take_length]
  constructor
  · intro hall
    refine ⟨fun line f hf hlt => ?_, hfields.mp fun g hg => ?_⟩
    · have hne : line ≠ UInt32.ofNat p.blockNumber := by
        rintro rfl
        omega
      obtain ⟨row, hrow, hin⟩ := hshown line f hf
      have hfound := hall line f ((hothers line hne).symm ▸ hf)
      rw [exists_shownIn_iff hin] at hfound
      exact (spelledIn_join_iff hend hrow hin).mp hfound hlt
    · obtain ⟨row, hrow, hin⟩ := hall _ g hg
      rwa [← Option.some.inj (hjoined.symm.trans hrow)] at hin
  · rintro ⟨hallows, herasure⟩ line g hg
    by_cases hline : line = UInt32.ofNat p.blockNumber
    · subst hline
      exact ⟨_, hjoined, hfields.mpr herasure g hg⟩
    · rw [hothers line hline] at hg
      obtain ⟨row, hrow, hin⟩ := hshown line g hg
      rw [exists_shownIn_iff hin]
      exact (spelledIn_join_iff hend hrow hin).mpr (hallows line g hg)

/-- Delete without Ctrl at the end of a line. -/
theorem allShown_delete_iff {keyEvent : KeyEvent} (hsize : d.plain.length < 2 ^ 31)
    (htext : LineManager.TextBelow (2 ^ 32 - 1) lm) (hidx : ∀ line, Indexed (lm.fields line)) (hshown : AllShown decode lm d)
    (h : LineEvent b layout lm c (some keyEvent) lm' change) (hkey : keyEvent.key = .delete)
    (hctrl : keyEvent.controlModifier = false) :
    AllShown decode lm' change.apply ↔ Allows decode lm change ∧
      AllowsErasure decode (lm.fields (currentLine (c.viewIn layout))) c.position.block (nextColumn (c.viewIn layout)) := by
  obtain ⟨hremove, q, rfl, hend⟩ := h.removed hkey hctrl
  have hwhole : LineChange.Whole (.join c.position q) := hend
  rw [Cursor.currentLine_viewIn] at hremove ⊢
  rcases lm.removeCharacter_cases (nextColumn (c.viewIn layout)) (UInt32.ofNat c.position.blockNumber) with
    ⟨hcall, hpast⟩ | ⟨i, f, hfirst, hle, hcall⟩
  · obtain rfl : lm = lm' := Except.ok.inj (hcall.symm.trans hremove)
    rw [allShown_apply_iff hwhole hshown, iff_self_and]
    intro _ i f herases
    exact absurd (hpast i f herases.first) (not_lt.mpr herases.stored)
  · have hlength := htext _ f hfirst.mem
    have hne := Field.ne_start_of_le hle (by omega)
    have hblock : ∀ g ∈ lm.fields (UInt32.ofNat c.position.blockNumber), ShownIn decode g c.position.block := by
      intro g hg
      obtain ⟨row, hrow, hin⟩ := hshown _ g hg
      rw [toNat_blockNumber c.position hsize, c.position.hblock] at hrow
      exact Option.some.inj hrow ▸ hin
    rw [← Except.ok.inj (hcall.symm.trans hremove)]
    refine allShown_removed_iff hsize hend hshown (fun line hline => LineManager.fields_write_of_ne hline.symm _) ?_
    rw [LineManager.fields_write_self, Line.setFields_mFields]
    exact shownIn_erased_iff (hidx _) hblock ⟨hfirst, hle⟩ hne

/-- After an event that splits or joins lines every field is shown by the document line of its number
exactly when the event is one that the fields allow. -/
theorem fields_follow_iff (clipboard : List QChar) (hsize : d.plain.length < 2 ^ 31)
    (htext : LineManager.TextBelow (2 ^ 32 - 1) lm) (hidx : ∀ line, Indexed (lm.fields line)) (hshown : AllShown decode lm d)
    (h : LineEvent b layout lm c input lm' change) :
    (textEdit clipboard c input).apply d.plain = plain change.apply ∧
      (AllShown decode lm' change.apply ↔ Allows decode lm change ∧ AllowsKey decode lm layout c input) := by
  refine ⟨(congrArg (·.apply d.plain) (h.edit_eq clipboard)).trans change.plain_apply, ?_⟩
  by_cases hdelete : ∀ keyEvent, input = some keyEvent → keyEvent.key = .delete → keyEvent.controlModifier = true
  · have hkey : AllowsKey decode lm layout c input := by
      cases input with
      | none => trivial
      | some keyEvent =>
        intro hkey hctrl
        rw [hdelete keyEvent rfl hkey] at hctrl
        cases hctrl
    rw [h.unchanged htext hdelete, and_iff_left hkey]
    exact allShown_apply_iff h.whole hshown
  · push Not at hdelete
    obtain ⟨keyEvent, rfl, hkey, hctrl⟩ := hdelete
    have hctrl' : keyEvent.controlModifier = false := by simpa using hctrl
    rw [allShown_delete_iff hsize htext hidx hshown h hkey hctrl']
    exact and_congr_right fun _ => ⟨fun herasure _ _ => herasure, fun hall => hall hkey hctrl'⟩

/-- What is read-only under the cursor is a title that the line shows there. -/
theorem title_of_isEditable (hshown : AllShown decode lm d) {col line : UInt32} (h : lm.isEditable col line = false) :
    ∃ f row, d[line.toNat]? = some row ∧ f.mType = .title ∧ f.atRange col = true ∧ ShownIn decode f row := by
  obtain ⟨i, f, hfirst, htitle⟩ := LineManager.isEditable_eq_false.mp h
  obtain ⟨row, hrow, hin⟩ := hshown line f hfirst.mem
  exact ⟨f, row, hrow, htitle, hfirst.inRange, hin⟩

/-- An empty line, and a line `A` below it with a title. -/
def emptyAbove : Document := [[], [65]]

def titleBelow : LineManager := LineManager.empty.write 1 { mNumber := 1, mFields := [⟨0, .title, 0, 1, [65]⟩] }

/-- A cursor without a selection. -/
def emptyAboveCursor (p : Place emptyAbove) : Cursor emptyAbove := { anchor := p, position := p }

def topPlace : Place emptyAbove := { blockNumber := 0, column := 0, block := [], hblock := rfl, hcolumn := le_rfl }

theorem eq_of_mem_titleBelow {line : UInt32} {f : Field} (hf : f ∈ titleBelow.fields line) :
    line = 1 ∧ f = ⟨0, .title, 0, 1, [65]⟩ := by
  by_cases hline : line = 1
  · subst hline
    rw [titleBelow, LineManager.fields_write_self] at hf
    exact ⟨rfl, List.mem_singleton.mp hf⟩
  · rw [titleBelow, LineManager.fields_write_of_ne (Ne.symm hline), LineManager.fields_empty] at hf
    cases hf

theorem textBelow_titleBelow : LineManager.TextBelow (2 ^ 32 - 1) titleBelow := by
  intro line f hf
  obtain ⟨-, rfl⟩ := eq_of_mem_titleBelow hf
  decide

theorem indexed_titleBelow (line : UInt32) : Indexed (titleBelow.fields line) := by
  intro i f hi
  obtain ⟨rfl, rfl⟩ := eq_of_mem_titleBelow (List.mem_of_getElem? hi)
  rw [titleBelow, LineManager.fields_write_self] at hi
  cases i with
  | zero => rfl
  | succ i => cases hi

theorem allShown_titleBelow : AllShown (List.map UInt8.toUInt16) titleBelow emptyAbove := by
  intro line f hf
  obtain ⟨rfl, rfl⟩ := eq_of_mem_titleBelow hf
  exact ⟨_, rfl, by decide, by decide⟩

/-- Return in the empty line. -/
theorem lineEvent_return (layout : TextLayout) :
    LineEvent ⟨false, none⟩ layout titleBelow (emptyAboveCursor topPlace) (some ⟨.return, false, []⟩) titleBelow
      (.split topPlace topPlace) := by
  refine .enter (r := letThrough titleBelow) (.inr rfl) ?_ rfl
  rw [Cursor.viewIn_of_firstRow (Cursor.firstRow_of_zero layout rfl)]
  rfl

theorem fields_follow_iff_return :
    (textEdit [] (emptyAboveCursor topPlace) (some ⟨.return, false, []⟩)).apply emptyAbove.plain =
        plain (LineChange.split topPlace topPlace).apply ∧
      (AllShown (List.map UInt8.toUInt16) titleBelow (LineChange.split topPlace topPlace).apply ↔
        Allows (List.map UInt8.toUInt16) titleBelow (LineChange.split topPlace topPlace) ∧
          AllowsKey (List.map UInt8.toUInt16) titleBelow .unwrapped (emptyAboveCursor topPlace)
            (some ⟨.return, false, []⟩)) :=
  fields_follow_iff [] (by decide) textBelow_titleBelow indexed_titleBelow allShown_titleBelow (lineEvent_return .unwrapped)

/-- The title goes down to line 2, its field stays in line 1. -/
theorem title_left_behind :
    ¬∀ (b : Build) (layout : TextLayout) (decode : Bytes → List QChar) (lm lm' : LineManager) (d : Document) (c : Cursor d)
      (input : Option KeyEvent) (change : LineChange d), d.plain.length < 2 ^ 31 → LineManager.TextBelow (2 ^ 32 - 1) lm →
      (∀ line, Indexed (lm.fields line)) → AllShown decode lm d → LineEvent b layout lm c input lm' change →
      AllShown decode lm' change.apply := by
  intro h
  have hshown := h _ .unwrapped _ _ _ _ _ _ _ (by decide) textBelow_titleBelow indexed_titleBelow allShown_titleBelow
    (lineEvent_return _)
  have hmem : ⟨0, .title, 0, 1, [65]⟩ ∈ titleBelow.fields 1 := by
    rw [titleBelow, LineManager.fields_write_self]
    exact List.mem_singleton.mpr rfl
  obtain ⟨row, hrow, hin⟩ := hshown 1 _ hmem
  have hempty : ([] : List QChar) = row := Option.some.inj hrow
  have htext := hin.text
  rw [← hempty] at htext
  exact absurd htext (by decide)

end PlainEditor

end MetaEditor
