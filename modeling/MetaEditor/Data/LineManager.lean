import MetaEditor.Data.Field

/-!
# The line manager

`LineManager` keeps the lines of the structure in a `std::map` from line number to line. Four
operations change it: a typed character (`eventFilter`), a title or a name added by a script
(`addTitle`, `addName`) and a removed character (`removeCharacter`). Each works on one line, finds the
first field in creation order that contains the column, and moves the fields created after it.

`FieldsStep` says once what an operation can do to the fields of its line, and `step_cases` that an
operation does nothing else. Every invariant of the structure is proved from these two.
-/

namespace MetaEditor

open Lib

/-- One line of the structure. -/
structure Line where
  mNumber : UInt32
  mFields : List Field
  deriving DecidableEq, Repr

namespace Line

/-- The first field, in creation order, that contains the column: a pointer into `mFields`. -/
def searchAtCol (l : Line) (col : UInt32) : Option (Fin l.mFields.length) :=
  l.mFields.findFinIdx? (·.atRange col)

/-- The loops `for (i = start; i < m_fields.size(); i++)` that shift every field from an index on. -/
def shiftFrom (start : Nat) (shift : Field → Field) (fields : List Field) : List Field :=
  fields.mapIdx fun i o => if start ≤ i then shift o else o

def setFields (l : Line) (fields : List Field) : Line := { l with mFields := fields }

/-- Write a changed field back and shift the fields after its position. -/
def replace (l : Line) (i : Fin l.mFields.length) (type : Field) (shift : Field → Field) : Line :=
  l.setFields (shiftFrom (type.mPosition + 1) shift (l.mFields.set i type))

/-- `m_fields.push_back`. -/
def push (l : Line) (type : Field) : Line := l.setFields (l.mFields ++ [type])

@[simp] theorem setFields_mFields (l : Line) (fields : List Field) : (l.setFields fields).mFields = fields := rfl

end Line

/-- The structure behind one editor. The `unsigned int` line numbers become `int` keys. -/
structure LineManager where
  mLines : Std.ExtTreeMap Int32 Line

namespace LineManager

def empty : LineManager := ⟨∅⟩

def get? (lm : LineManager) (line : UInt32) : Option Line := lm.mLines[line.toInt32]?

/-- `m_lines.at(line)`. -/
def lineAt (lm : LineManager) (line : UInt32) : Except Failure Line :=
  match lm.get? line with
  | some ptr => .ok ptr
  | none => .error .outOfRange

/-- `m_lines.insert(std::make_pair(line, ptr))`: a key that is there keeps its line. -/
def insert (lm : LineManager) (line : UInt32) (ptr : Line) : LineManager :=
  ⟨lm.mLines.insertIfNew line.toInt32 ptr⟩

/-- What writing through the `Line*` stored for a line does. -/
def write (lm : LineManager) (line : UInt32) (ptr : Line) : LineManager :=
  ⟨lm.mLines.insert line.toInt32 ptr⟩

/-! ### The operations -/

/-- How the `try` block of `eventFilter` ends: it returns, or goes on to make a new field. -/
inductive EventFilterTry
  | returned (answer : Bool) (lm : LineManager)
  | fellThrough (ptr : Line) (position : Nat)

/-- The `try` block of `eventFilter`. -/
def eventFilterTry (lm : LineManager) (col line : UInt32) (character : UInt8) :
    Except Failure EventFilterTry := do
  let ptr ← lm.lineAt line
  match ptr.searchAtCol col with
  | some type =>
    if ptr.mFields[type].mType = .title then
      return .returned false lm
    let field ← ptr.mFields[type].appendChar character col
    return .returned true (lm.write line (ptr.replace type field Field.shiftRight))
  | none => return .fellThrough ptr ptr.mFields.length

def eventFilter (lm : LineManager) (col line : UInt32) (character : UInt8) :
    Except Failure (Bool × LineManager) :=
  match lm.eventFilterTry col line character with
  | .ok (.returned answer lm') => .ok (answer, lm')
  | .ok (.fellThrough ptr position) => do
    let type ← (Field.new position .text col col).appendChar character col
    return (true, (lm.write line (ptr.push type)).insert line (ptr.push type))
  | .error .outOfRange => do
    -- `ptr` is a new line here, so the map keeps the old one when there is one
    let type ← (Field.new 0 .text col col).appendChar character col
    return (true, lm.insert line { mNumber := line, mFields := [type] })
  | .error e => .error e

/-- The `try` block of `addTitle` and `addName`: the line, made when it does not exist. -/
def lineOrNew (lm : LineManager) (line : UInt32) : Line × LineManager :=
  match lm.lineAt line with
  | .ok ptr => (ptr, lm)
  | .error _ => ({ mNumber := line, mFields := [] }, lm.insert line { mNumber := line, mFields := [] })

/-- `addTitle` and `addName` differ in the type of the field alone. -/
def addField (type : FieldType) (lm : LineManager) (str : Bytes) (col line : UInt32) :
    Except Failure LineManager := do
  let (ptr, lm) := lm.lineOrNew line
  if (ptr.searchAtCol col).isNone then
    let field ← (Field.new ptr.mFields.length type col col).appendInfo (cString str) col
    return lm.write line (ptr.push field)
  return lm

def addTitle (lm : LineManager) (str : Bytes) (col line : UInt32) : Except Failure LineManager :=
  addField .title lm str col line

def addName (lm : LineManager) (str : Bytes) (col line : UInt32) : Except Failure LineManager :=
  addField .name lm str col line

/-- The `try` block of `removeCharacter`. -/
def removeCharacterTry (lm : LineManager) (col line : UInt32) : Except Failure LineManager := do
  let ptr ← lm.lineAt line
  match ptr.searchAtCol col with
  | some type =>
    let field ← ptr.mFields[type].removeAt (col - 1)
    return lm.write line (ptr.replace type field Field.shiftLeft)
  | none => return lm

def removeCharacter (lm : LineManager) (col line : UInt32) : Except Failure LineManager :=
  match lm.removeCharacterTry col line with
  | .ok lm' => .ok lm'
  | .error .outOfRange => .ok lm
  | .error e => .error e

def isEditable (lm : LineManager) (col line : UInt32) : Bool :=
  if lm.mLines.isEmpty then true
  else
    match lm.lineAt line with
    | .ok ptr =>
      match ptr.searchAtCol col with
      | some type => ptr.mFields[type].mType != .title
      | none => true
    | .error _ => true

def type (lm : LineManager) (col line : UInt32) : String :=
  if lm.mLines.isEmpty then "Text"
  else
    match lm.lineAt line with
    | .ok ptr =>
      match ptr.searchAtCol col with
      | some type =>
        match ptr.mFields[type].mType with
        | .title => "Title"
        | .text => "Text"
        | .name => "Name"
        | .relation => "Relation"
        | .none | .maxFieldType => "Error"
      | none => "Text"
    | .error _ => "Text"

/-! ### Runs of operations -/

/-- One call of a mutating operation. -/
inductive Op
  | eventFilter (col line : UInt32) (character : UInt8)
  | addTitle (str : Bytes) (col line : UInt32)
  | addName (str : Bytes) (col line : UInt32)
  | removeCharacter (col line : UInt32)
  deriving DecidableEq, Repr

def Op.line : Op → UInt32
  | .eventFilter _ line _ | .addTitle _ _ line | .addName _ _ line | .removeCharacter _ line => line

def apply (lm : LineManager) : Op → Except Failure LineManager
  | .eventFilter col line character => (lm.eventFilter col line character).map Prod.snd
  | .addTitle str col line => lm.addTitle str col line
  | .addName str col line => lm.addName str col line
  | .removeCharacter col line => lm.removeCharacter col line

/-- The state after a call. No exception escapes (`apply_eq_ok`). -/
def step (lm : LineManager) (op : Op) : LineManager :=
  match lm.apply op with
  | .ok lm' => lm'
  | .error _ => lm

/-! ### Lines by number -/

/-- The fields stored under a line number; a line that does not exist has none. -/
def fields (lm : LineManager) (line : UInt32) : List Field := (lm.get? line).elim [] Line.mFields

theorem fields_of_get? {lm : LineManager} {line : UInt32} {ptr : Line} (h : lm.get? line = some ptr) :
    lm.fields line = ptr.mFields := by
  rw [fields, h, Option.elim_some]

theorem get?_ne_none_of_mem {lm : LineManager} {line : UInt32} {f : Field} (h : f ∈ lm.fields line) :
    lm.get? line ≠ none := by
  intro hget
  rw [fields, hget] at h
  exact List.not_mem_nil h

@[simp] theorem get?_empty (line : UInt32) : empty.get? line = none := by
  simp [empty, get?]

@[simp] theorem fields_empty (line : UInt32) : empty.fields line = [] := by
  simp [fields]

theorem toInt32_inj {line line' : UInt32} : line.toInt32 = line'.toInt32 ↔ line = line' :=
  ⟨fun h => congrArg Int32.toUInt32 h, fun h => h ▸ rfl⟩

theorem get?_write (lm : LineManager) (line line' : UInt32) (ptr : Line) :
    (lm.write line ptr).get? line' = if line = line' then some ptr else lm.get? line' := by
  simp only [get?, write, Std.ExtTreeMap.getElem?_insert, Std.LawfulEqCmp.compare_eq_iff_eq,
    toInt32_inj]

@[simp] theorem fields_write_self (lm : LineManager) (line : UInt32) (ptr : Line) :
    (lm.write line ptr).fields line = ptr.mFields := by
  simp [fields, get?_write]

theorem fields_write_of_ne {lm : LineManager} {line line' : UInt32} (h : line ≠ line') (ptr : Line) :
    (lm.write line ptr).fields line' = lm.fields line' := by
  simp [fields, get?_write, h]

theorem insert_write (lm : LineManager) (line : UInt32) (ptr : Line) :
    (lm.write line ptr).insert line ptr = lm.write line ptr := by
  simp only [write, insert, LineManager.mk.injEq]
  refine Std.ExtTreeMap.ext_getElem? fun k => ?_
  rw [Std.ExtTreeMap.getElem?_insertIfNew]
  simp

/-- Inserting under a number that is not there is a write. -/
theorem insert_of_get?_eq_none {lm : LineManager} {line : UInt32} (h : lm.get? line = none) (ptr : Line) :
    lm.insert line ptr = lm.write line ptr := by
  have hmem : line.toInt32 ∉ lm.mLines := by simpa [get?] using h
  simp only [write, insert, LineManager.mk.injEq]
  refine Std.ExtTreeMap.ext_getElem? fun k => ?_
  simp [Std.ExtTreeMap.getElem?_insertIfNew, Std.ExtTreeMap.getElem?_insert, hmem]

theorem insert_of_get?_eq_some {lm : LineManager} {line : UInt32} {old : Line}
    (h : lm.get? line = some old) (ptr : Line) : lm.insert line ptr = lm := by
  have hmem : line.toInt32 ∈ lm.mLines := by
    rw [Std.ExtTreeMap.mem_iff_isSome_getElem?]
    simp [get?] at h
    simp [h]
  obtain ⟨lines⟩ := lm
  simp only [insert, LineManager.mk.injEq]
  refine Std.ExtTreeMap.ext_getElem? fun k => ?_
  simp [Std.ExtTreeMap.getElem?_insertIfNew, hmem]

theorem write_write (lm : LineManager) (line : UInt32) (ptr ptr' : Line) :
    (lm.write line ptr).write line ptr' = lm.write line ptr' := by
  simp only [write, LineManager.mk.injEq]
  refine Std.ExtTreeMap.ext_getElem? fun k => ?_
  simp only [Std.ExtTreeMap.getElem?_insert]
  split_ifs <;> rfl

end LineManager

end MetaEditor
