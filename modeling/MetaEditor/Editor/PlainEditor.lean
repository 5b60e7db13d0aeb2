import MetaEditor.Data.Step

/-!
# The key filter of the editor

`PlainEditor::eventFilter` sees every event before the text widget does. It asks the line manager
whether the key may be typed where the cursor is, tells it about the character that goes in or out,
and answers `true` to take the event away from the widget. The widget itself is not modelled here:
the filter reads the cursor (`View`), and what it inserts itself is part of its result. `m_dataman` is
set by the constructor and kept until the destructor, so that the null check has no branch here.
-/

namespace MetaEditor

open Lib

/-- A UTF-16 code unit. -/
abbrev QChar := UInt16

/-- `QChar::toLatin1`: the code unit itself up to `0xff`, else NUL. -/
def QChar.toLatin1 (c : QChar) : UInt8 := if c ≤ 0xff then c.toUInt8 else 0

/-- The byte is the code unit exactly when that is in Latin-1. -/
theorem QChar.toUInt16_toLatin1 (c : QChar) : c.toLatin1.toUInt16 = c ↔ c ≤ 0xff := by
  rw [UInt16.le_iff_toNat_le, ← UInt16.toNat_inj, UInt8.toNat_toUInt16]
  constructor
  · intro h
    rw [← h]
    exact Nat.le_of_lt_succ c.toLatin1.toNat_lt
  · intro h
    rw [QChar.toLatin1, if_pos (UInt16.le_iff_toNat_le.mpr h), UInt16.toNat_toUInt8]
    exact Nat.mod_eq_of_lt (Nat.lt_succ_of_le h)

/-- `Qt::Key`: the keys that the filter names, and any other one by its code. -/
inductive Key
  | capsLock
  | left
  | down
  | right
  | up
  | enter
  | return
  | escape
  | f1
  | f2
  | f3
  | backspace
  | delete
  | other (code : Nat)
  deriving DecidableEq, Repr

/-- `QKeyEvent`, as far as it is read. -/
structure KeyEvent where
  key : Key
  controlModifier : Bool
  text : List QChar
  deriving DecidableEq, Repr

/-- `QEvent`: a key press, or an event of another type. -/
inductive Event
  | keyPress (keyEvent : KeyEvent)
  | other
  deriving DecidableEq, Repr

/-- What the filter reads of the widget and its text cursor. -/
structure View where
  visible : Bool
  /-- `textCursor().columnNumber()`. -/
  cursorColumn : Int
  blockNumber : Int
  selectionStart : Int
  selectionEnd : Int
  deriving DecidableEq, Repr

/-- How the editor was built: with the keys of `__LOG_TEST__` or without, and what `text().at(0)` gives
for an empty text (a failed assertion, or the code unit that a build without assertions reads). -/
structure Build where
  logTest : Bool
  emptyAt : Option QChar
  deriving DecidableEq, Repr

/-- The answer of the filter, the structure after it, and the text it inserted in the document. -/
structure Filtered where
  answer : Bool
  dataman : LineManager
  inserted : String

namespace PlainEditor

/-- `columnNumber()`, as the `unsigned int` parameters of the line manager receive it. -/
def columnNumber (v : View) : Int :=
  if v.visible then if v.cursorColumn < 0 then 0 else v.cursorColumn else 0

def column (v : View) : UInt32 := UInt32.ofInt (columnNumber v)

/-- `columnNumber() + 1`. -/
def nextColumn (v : View) : UInt32 := UInt32.ofInt (columnNumber v + 1)

def currentLine (v : View) : UInt32 := UInt32.ofInt v.blockNumber

/-- The column that `addTitle` and `addName` of the editor choose. -/
def newColumn (v : View) : UInt32 := UInt32.ofInt (if columnNumber v > 1 then columnNumber v + 2 else 0)

/-- `keyEvent->text().at(0)`. -/
def textAt0 (b : Build) (keyEvent : KeyEvent) : Except Failure QChar :=
  match keyEvent.text, b.emptyAt with
  | c :: _, _ => .ok c
  | [], some c => .ok c
  | [], none => .error .assertion

/-- Take the event away. -/
def stop (lm : LineManager) : Filtered := { answer := true, dataman := lm, inserted := "" }

/-- `QObject::eventFilter` answers `false`: the widget gets the event. -/
def letThrough (lm : LineManager) : Filtered := { answer := false, dataman := lm, inserted := "" }

/-- The cases of Enter and Return. -/
def enterKey (v : View) (lm : LineManager) : Except Failure Filtered :=
  if lm.isEditable (column v) (currentLine v) = false then return stop lm else return letThrough lm

/-- The cases of Backspace and Delete, which differ in the column. -/
def eraseKey (v : View) (lm : LineManager) (col : UInt32) : Except Failure Filtered :=
  if v.selectionStart = v.selectionEnd then
    if lm.isEditable col (currentLine v) = false then return stop lm
    else return letThrough (← lm.removeCharacter col (currentLine v))
  else return stop lm

/-- The default case. -/
def characterKey (b : Build) (v : View) (lm : LineManager) (keyEvent : KeyEvent) : Except Failure Filtered := do
  let c ← textAt0 b keyEvent
  let (answer, lm') ← lm.eventFilter (column v) (currentLine v) (QChar.toLatin1 c)
  return if answer = false then stop lm' else letThrough lm'

/-- The strings that F2 and F3 add, as the bytes of the source file. -/
def testTitle : Bytes := "Nome da base de software:".toUTF8.toList
def testName : Bytes := "EDT Nome para busca".toUTF8.toList

def keyFilter (b : Build) (v : View) (lm : LineManager) (keyEvent : KeyEvent) : Except Failure Filtered :=
  if keyEvent.controlModifier then return letThrough lm
  else
    match keyEvent.key, b.logTest with
    | .capsLock, _ | .left, _ | .down, _ | .right, _ | .up, _ => return letThrough lm
    | .enter, _ | .return, _ => enterKey v lm
    | .escape, true => return stop lm
    | .f1, true => return { stop lm with inserted := " " }
    | .f2, true => return stop (← lm.addTitle testTitle (column v) (currentLine v))
    | .f3, true => return stop (← lm.addName testName (column v) (currentLine v))
    | .backspace, _ => eraseKey v lm (column v)
    | .delete, _ => eraseKey v lm (nextColumn v)
    | .escape, false | .f1, false | .f2, false | .f3, false | .other _, _ => characterKey b v lm keyEvent

def eventFilter (b : Build) (v : View) (lm : LineManager) (event : Event) : Except Failure Filtered :=
  match event with
  | .keyPress keyEvent => keyFilter b v lm keyEvent
  | .other => return letThrough lm

def addTitle (v : View) (lm : LineManager) (str : Bytes) : Except Failure LineManager :=
  lm.addTitle str (newColumn v) (currentLine v)

def addName (v : View) (lm : LineManager) (str : Bytes) : Except Failure LineManager :=
  lm.addName str (newColumn v) (currentLine v)

def isEditable (v : View) (lm : LineManager) : Bool := lm.isEditable (column v) (currentLine v)

def objectType (v : View) (lm : LineManager) : String := lm.type (column v) (currentLine v)

/-! ### Runs of the editor -/

/-- What happens to an editor: an event, or a script that adds a title or a name, at any column. -/
inductive Input
  | event (v : View) (event : Event)
  | addTitle (str : Bytes) (col line : UInt32)
  | addName (str : Bytes) (col line : UInt32)
  deriving DecidableEq, Repr

def handle (b : Build) (lm : LineManager) : Input → Except Failure LineManager
  | .event v event => (eventFilter b v lm event).map Filtered.dataman
  | .addTitle str col line => lm.addTitle str col line
  | .addName str col line => lm.addName str col line

/-- The structure after an input. A failed assertion ends the program and leaves it as it is. -/
def step (b : Build) (lm : LineManager) (input : Input) : LineManager :=
  match handle b lm input with
  | .ok lm' => lm'
  | .error _ => lm

/-- What the filter may ask for: a removal only at a column that is editable. -/
def Guarded (lm : LineManager) : LineManager.Op → Prop
  | .removeCharacter col line => lm.isEditable col line = true
  | _ => True

/-! ### What is known of a key that is let through -/

theorem enterKey_letThrough {v : View} {lm : LineManager} {r : Filtered} (h : enterKey v lm = .ok r)
    (hlet : r.answer = false) : r.dataman = lm ∧ lm.isEditable (column v) (currentLine v) = true := by
  unfold enterKey at h
  split_ifs at h with hedit
  · cases h
    cases hlet
  · cases h
    exact ⟨rfl, by simpa using hedit⟩

theorem eraseKey_letThrough {v : View} {lm : LineManager} {col : UInt32} {r : Filtered}
    (h : eraseKey v lm col = .ok r) (hlet : r.answer = false) :
    v.selectionStart = v.selectionEnd ∧ lm.isEditable col (currentLine v) = true ∧
      lm.removeCharacter col (currentLine v) = .ok r.dataman := by
  unfold eraseKey at h
  split_ifs at h with hsel hedit
  · cases h
    cases hlet
  · obtain ⟨lm', hremove, h⟩ := exists_of_bind_eq_ok h
    cases h
    exact ⟨hsel, by simpa using hedit, hremove⟩
  · cases h
    cases hlet

theorem characterKey_letThrough {b : Build} {v : View} {lm : LineManager} {keyEvent : KeyEvent} {r : Filtered}
    (h : characterKey b v lm keyEvent = .ok r) (hlet : r.answer = false) :
    ∃ c, textAt0 b keyEvent = .ok c ∧
      lm.eventFilter (column v) (currentLine v) (QChar.toLatin1 c) = .ok (true, r.dataman) := by
  obtain ⟨c, hc, h⟩ := exists_of_bind_eq_ok h
  obtain ⟨⟨answer, lm'⟩, hcall, h⟩ := exists_of_bind_eq_ok h
  cases h
  cases answer
  · cases hlet
  · exact ⟨c, hc, hcall⟩

/-! ### What an event does to the structure -/

theorem enterKey_guarded {v : View} {lm : LineManager} {r : Filtered} (h : enterKey v lm = .ok r) :
    r.dataman = lm ∨ ∃ op, Guarded lm op ∧ lm.apply op = .ok r.dataman := by
  unfold enterKey at h
  split_ifs at h <;> (cases h; exact .inl rfl)

theorem eraseKey_guarded {v : View} {lm : LineManager} {col : UInt32} {r : Filtered}
    (h : eraseKey v lm col = .ok r) :
    r.dataman = lm ∨ ∃ op, Guarded lm op ∧ lm.apply op = .ok r.dataman := by
  unfold eraseKey at h
  split_ifs at h with hsel hedit
  · cases h
    exact .inl rfl
  · obtain ⟨lm', hremove, h⟩ := exists_of_bind_eq_ok h
    cases h
    exact .inr ⟨.removeCharacter col (currentLine v), by simpa [Guarded] using hedit, hremove⟩
  · cases h
    exact .inl rfl

theorem characterKey_guarded {b : Build} {v : View} {lm : LineManager} {keyEvent : KeyEvent} {r : Filtered}
    (h : characterKey b v lm keyEvent = .ok r) :
    r.dataman = lm ∨ ∃ op, Guarded lm op ∧ lm.apply op = .ok r.dataman := by
  obtain ⟨c, -, h⟩ := exists_of_bind_eq_ok h
  obtain ⟨⟨answer, lm'⟩, hcall, h⟩ := exists_of_bind_eq_ok h
  cases h
  refine .inr ⟨.eventFilter (column v) (currentLine v) (QChar.toLatin1 c), trivial, ?_⟩
  rw [LineManager.apply, hcall]
  cases answer <;> rfl

/-- An event changes the structure by one guarded operation or not at all. -/
theorem eventFilter_guarded {b : Build} {v : View} {lm : LineManager} {event : Event} {r : Filtered}
    (h : eventFilter b v lm event = .ok r) :
    r.dataman = lm ∨ ∃ op, Guarded lm op ∧ lm.apply op = .ok r.dataman := by
  cases event with
  | other =>
    cases h
    exact .inl rfl
  | keyPress keyEvent =>
    have hadd : ∀ {type : FieldType} {str : Bytes},
        (do return stop (← LineManager.addField type lm str (column v) (currentLine v))) = Except.ok r →
          LineManager.addField type lm str (column v) (currentLine v) = .ok r.dataman := by
      intro type str hr
      obtain ⟨lm', hcall, hr⟩ := exists_of_bind_eq_ok hr
      cases hr
      exact hcall
    simp only [eventFilter, keyFilter] at h
    by_cases hctrl : keyEvent.controlModifier = true
    · rw [if_pos hctrl] at h
      cases h
      exact .inl rfl
    · rw [if_neg hctrl] at h
      cases hkey : keyEvent.key <;> cases hlog : b.logTest <;> simp only [hkey, hlog] at h
      case f2.true => exact .inr ⟨.addTitle testTitle _ _, trivial, hadd h⟩
      case f3.true => exact .inr ⟨.addName testName _ _, trivial, hadd h⟩
      all_goals first
        | exact eraseKey_guarded h
        | exact characterKey_guarded h
        | exact enterKey_guarded h
        | exact .inl (by cases h; rfl)

end PlainEditor

end MetaEditor
