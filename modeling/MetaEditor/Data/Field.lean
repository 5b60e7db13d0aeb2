import MetaEditor.Lib.Arc
import MetaEditor.Lib.StdString

/-!
# Fields and lines of the structure

A field is a run of text in one line: its bytes and the columns `mStart .. mEnd` it takes, where
`mEnd` is meant to be `mStart` plus the size of the text. Columns are `unsigned int` and wrap. A line
keeps its fields in the order they were created in, and `mPosition` is a field's index in that order.

The size of a text added in bulk is counted in UTF-8 characters (`utf8StringSize`), the size of a
typed or removed one in bytes.
-/

namespace MetaEditor

open Lib

/-- The kinds of object a line can hold. -/
inductive FieldType
  | none
  | text
  | name
  | title
  | relation
  | maxFieldType
  deriving DecidableEq, Repr

/-- One object of a line. -/
structure Field where
  mPosition : Nat
  mType : FieldType
  mStart : UInt32
  mEnd : UInt32
  mInfo : Bytes
  deriving DecidableEq, Repr

/-! ### Counting characters -/

/-- The loop of `IncUtf8StringIterator`: step over bytes until one that is not a continuation byte,
counting them in `res`. -/
def skipContinuation (res : Nat) : Bytes → Nat × Bytes
  | [] => (res, [])
  | c :: rest =>
    if c &&& 0x80 = 0 ∨ c &&& 0xC0 = 0xC0 then (res, c :: rest) else skipContinuation (res + 1) rest

/-- `IncUtf8StringIterator`: the number of bytes stepped over and what is left after them. -/
def incUtf8StringIterator : Bytes → Nat × Bytes
  | [] => (0, [])
  | _ :: rest => skipContinuation 1 rest

/-- The loop steps over bytes that are there, and leaves those behind them. -/
theorem skipContinuation_drop (res : Nat) (s : Bytes) :
    res ≤ (skipContinuation res s).1 ∧ (skipContinuation res s).1 ≤ res + s.length ∧
      (skipContinuation res s).2 = s.drop ((skipContinuation res s).1 - res) := by
  induction s generalizing res with
  | nil => simp [skipContinuation]
  | cons c rest ih =>
    rw [skipContinuation]
    split_ifs
    · simp
    · obtain ⟨hlow, hhigh, hdrop⟩ := ih (res + 1)
      have hback : (skipContinuation (res + 1) rest).1 - res = (skipContinuation (res + 1) rest).1 - (res + 1) + 1 := by
        omega
      rw [hback, List.drop_succ_cons, List.length_cons]
      exact ⟨by omega, by omega, hdrop⟩

/-- The iterator moves, and not past the end. -/
theorem incUtf8StringIterator_drop (c : UInt8) (rest : Bytes) :
    0 < (incUtf8StringIterator (c :: rest)).1 ∧ (incUtf8StringIterator (c :: rest)).1 ≤ (c :: rest).length ∧
      (incUtf8StringIterator (c :: rest)).2 = (c :: rest).drop (incUtf8StringIterator (c :: rest)).1 := by
  obtain ⟨hlow, hhigh, hdrop⟩ := skipContinuation_drop 1 rest
  rw [incUtf8StringIterator]
  refine ⟨hlow, by rw [List.length_cons]; omega, ?_⟩
  obtain ⟨n, hn⟩ := Nat.exists_eq_add_of_le' hlow
  rw [hdrop, hn, Nat.add_sub_cancel, List.drop_succ_cons]

theorem incUtf8StringIterator_length_lt (c : UInt8) (rest : Bytes) :
    (incUtf8StringIterator (c :: rest)).2.length < (c :: rest).length := by
  obtain ⟨hpos, hle, hdrop⟩ := incUtf8StringIterator_drop c rest
  rw [hdrop, List.length_drop]
  omega

/-- `Utf8StringSize`: one for each step of the iterator until the end. -/
def utf8StringSize (str : Bytes) : Nat :=
  match str with
  | [] => 0
  | c :: rest => utf8StringSize (incUtf8StringIterator (c :: rest)).2 + 1
termination_by str.length
decreasing_by exact incUtf8StringIterator_length_lt c rest

@[simp] theorem utf8StringSize_nil : utf8StringSize [] = 0 := by rw [utf8StringSize]

theorem utf8StringSize_cons (c : UInt8) (rest : Bytes) :
    utf8StringSize (c :: rest) = utf8StringSize (incUtf8StringIterator (c :: rest)).2 + 1 := by
  rw [utf8StringSize]

/-- A string has at most as many characters as bytes. -/
theorem utf8StringSize_le (str : Bytes) : utf8StringSize str ≤ str.length := by
  induction str using utf8StringSize.induct with
  | case1 => simp
  | case2 c rest ih =>
    have hlt := incUtf8StringIterator_length_lt c rest
    rw [utf8StringSize_cons]
    omega

/-! ### Fields -/

namespace Field

/-- The constructor: the text is empty. -/
def new (pos : Nat) (type : FieldType) (start stop : UInt32) : Field :=
  { mPosition := pos, mType := type, mStart := start, mEnd := stop, mInfo := [] }

/-- Both ends count. -/
def atRange (f : Field) (col : UInt32) : Bool := decide (col ≥ f.mStart) && decide (col ≤ f.mEnd)

/-- Insert a string; the offset is an `unsigned int` difference. -/
def appendInfo (f : Field) (c : Bytes) (pos : UInt32) : Except Failure Field := do
  let info ← insertAt f.mInfo (pos - f.mStart).toNat c
  return { f with mInfo := info, mEnd := f.mEnd + UInt32.ofNat (utf8StringSize c) }

/-- Insert one character. -/
def appendChar (f : Field) (c : UInt8) (pos : UInt32) : Except Failure Field := do
  let info ← insertAt f.mInfo (pos - f.mStart).toNat [c]
  return { f with mInfo := info, mEnd := f.mEnd + 1 }

/-- Erase one character. -/
def removeAt (f : Field) (pos : UInt32) : Except Failure Field := do
  let info ← eraseAt f.mInfo (pos - f.mStart).toNat 1
  return { f with mInfo := info, mEnd := f.mEnd - 1 }

def shiftRight (f : Field) : Field := { f with mStart := f.mStart + 1, mEnd := f.mEnd + 1 }

def shiftLeft (f : Field) : Field := { f with mStart := f.mStart - 1, mEnd := f.mEnd - 1 }

@[simp] theorem atRange_eq_true {f : Field} {col : UInt32} :
    f.atRange col = true ↔ f.mStart ≤ col ∧ col ≤ f.mEnd := by
  simp [atRange]

@[simp] theorem atRange_eq_false {f : Field} {col : UInt32} :
    f.atRange col = false ↔ ¬(f.mStart ≤ col ∧ col ≤ f.mEnd) := by
  rw [← atRange_eq_true, Bool.not_eq_true]

@[simp] theorem shiftRight_mInfo (f : Field) : f.shiftRight.mInfo = f.mInfo := rfl
@[simp] theorem shiftRight_mType (f : Field) : f.shiftRight.mType = f.mType := rfl
@[simp] theorem shiftRight_mPosition (f : Field) : f.shiftRight.mPosition = f.mPosition := rfl
@[simp] theorem shiftRight_mStart (f : Field) : f.shiftRight.mStart = f.mStart + 1 := rfl
@[simp] theorem shiftRight_mEnd (f : Field) : f.shiftRight.mEnd = f.mEnd + 1 := rfl

@[simp] theorem shiftLeft_mInfo (f : Field) : f.shiftLeft.mInfo = f.mInfo := rfl
@[simp] theorem shiftLeft_mType (f : Field) : f.shiftLeft.mType = f.mType := rfl
@[simp] theorem shiftLeft_mPosition (f : Field) : f.shiftLeft.mPosition = f.mPosition := rfl
@[simp] theorem shiftLeft_mStart (f : Field) : f.shiftLeft.mStart = f.mStart - 1 := rfl
@[simp] theorem shiftLeft_mEnd (f : Field) : f.shiftLeft.mEnd = f.mEnd - 1 := rfl

theorem toNat_shiftRight {f : Field} (hle : f.mStart.toNat ≤ f.mEnd.toNat) (hroom : f.mEnd.toNat + 1 < 2 ^ 32) :
    f.shiftRight.mStart.toNat = f.mStart.toNat + 1 ∧ f.shiftRight.mEnd.toNat = f.mEnd.toNat + 1 :=
  ⟨toNat_add_one_of_lt (by omega), toNat_add_one_of_lt hroom⟩

theorem toNat_shiftLeft {f : Field} (hpos : 0 < f.mStart.toNat) (hle : f.mStart.toNat ≤ f.mEnd.toNat) :
    f.shiftLeft.mStart.toNat = f.mStart.toNat - 1 ∧ f.shiftLeft.mEnd.toNat = f.mEnd.toNat - 1 :=
  ⟨toNat_sub_one hpos, toNat_sub_one (hpos.trans_le hle)⟩

/-- The columns a field takes, modulo `2 ^ 32`. -/
def width (f : Field) : UInt32 := f.mEnd - f.mStart

@[simp] theorem width_shiftRight (f : Field) : f.shiftRight.width = f.width := by
  simp only [width, shiftRight_mStart, shiftRight_mEnd]
  grind

@[simp] theorem width_shiftLeft (f : Field) : f.shiftLeft.width = f.width := by
  simp only [width, shiftLeft_mStart, shiftLeft_mEnd]
  grind

/-- A column in range is at most the width away from the start. -/
theorem offset_le_width {f : Field} {col : UInt32} (h : f.atRange col = true) :
    (col - f.mStart).toNat ≤ f.width.toNat := by
  obtain ⟨hlow, hhigh⟩ := atRange_eq_true.mp h
  rw [UInt32.le_iff_toNat_le] at hlow hhigh
  rw [width, UInt32.toNat_sub_of_le _ _ (UInt32.le_iff_toNat_le.mpr hlow),
    UInt32.toNat_sub_of_le _ _ (UInt32.le_iff_toNat_le.mpr (hlow.trans hhigh))]
  omega

/-- In the first column of a field the offset of the character before it is past the end of any text. -/
theorem offset_first {f : Field} {col : UInt32} (h : col = f.mStart) : (col - 1 - f.mStart).toNat = 2 ^ 32 - 1 := by
  rw [h, show f.mStart - 1 - f.mStart = 0 - 1 by grind]
  rfl

/-- In any other column it is the offset before that of the column. -/
theorem offset_later {f : Field} {col : UInt32} (hrange : f.atRange col = true) (h : col ≠ f.mStart) :
    (col - 1 - f.mStart).toNat + 1 = (col - f.mStart).toNat := by
  obtain ⟨hlow, -⟩ := atRange_eq_true.mp hrange
  rw [UInt32.le_iff_toNat_le] at hlow
  have hne : col.toNat ≠ f.mStart.toNat := fun heq => h (UInt32.toNat_inj.mp heq)
  have hmax := col.toNat_lt
  rw [UInt32.toNat_sub_of_le _ _ (UInt32.le_iff_toNat_le.mpr hlow), UInt32.toNat_sub, toNat_sub_one_mod]
  omega

/-- So nothing is erased in the first column. -/
theorem ne_start_of_le {f : Field} {col : UInt32} (hle : (col - 1 - f.mStart).toNat ≤ f.mInfo.length)
    (hsize : f.mInfo.length + 1 < 2 ^ 32) : col ≠ f.mStart := by
  intro heq
  rw [offset_first heq] at hle
  omega

end Field

end MetaEditor
