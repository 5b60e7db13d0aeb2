import MetaEditor.Data.Indexed
import MetaEditor.Editor.Document
import MetaEditor.Lib.Spelling

/-!
# A field beside a line of the document

A line of the structure `Agrees` with a line of the document when every field is spelled at its columns
and no two fields share a column. This module follows one field while a character goes into the line
or out of it: where it stays spelled, and what it takes when the structure moves it and the document
does not, or the other way round.
-/

namespace MetaEditor

open Lib

/-- The text of a field as the document would show it. -/
def Field.shown (f : Field) : List QChar := f.mInfo.map UInt8.toUInt16

/-- The field is spelled at its columns, in 7-bit characters. -/
structure Spelled (f : Field) (row : List QChar) : Prop where
  size : f.mEnd.toNat = f.mStart.toNat + f.mInfo.length
  ascii : ∀ b ∈ f.mInfo, b < 128
  text : SpelledAt f.shown row f.mStart.toNat

/-- A line of the structure and a line of the document say the same. -/
structure Agrees (fields : List Field) (row : List QChar) : Prop where
  spelled : ∀ f ∈ fields, Spelled f row
  apart : Apart fields

@[simp] theorem Field.length_shown (f : Field) : f.shown.length = f.mInfo.length := by simp [shown]

theorem Spelled.end_le {f : Field} {row : List QChar} (h : Spelled f row) (hne : f.mInfo ≠ []) :
    f.mEnd.toNat ≤ row.length := by
  have hend := h.text.end_le (by simpa [Field.shown] using hne)
  rw [f.length_shown] at hend
  rw [h.size]
  exact hend

/-- The last column is a column of the line, or the field is empty. -/
theorem Spelled.end_le_or {f : Field} {row : List QChar} (h : Spelled f row) :
    f.mEnd.toNat ≤ row.length ∨ f.mInfo = [] ∧ f.mEnd.toNat = f.mStart.toNat := by
  by_cases hne : f.mInfo = []
  · have hsize := h.size
    rw [hne] at hsize
    exact .inr ⟨hne, hsize⟩
  · exact .inl (h.end_le hne)

theorem spelled_of_nil {f : Field} {row : List QChar} (hnil : f.mInfo = []) (hsize : f.mEnd = f.mStart) :
    Spelled f row := by
  refine ⟨by simp [hsize, hnil], by simp [hnil], ?_⟩
  rw [Field.shown, hnil]
  exact spelledAt_nil

/-- A text at other columns. -/
theorem spelled_iff_of_info {f g : Field} {row row' : List QChar} (hf : Spelled f row) (hinfo : g.mInfo = f.mInfo)
    (hsize : g.mEnd.toNat = g.mStart.toNat + g.mInfo.length) :
    Spelled g row' ↔ SpelledAt f.shown row' g.mStart.toNat := by
  have hshown : g.shown = f.shown := by rw [Field.shown, Field.shown, hinfo]
  refine ⟨fun h => hshown ▸ h.text, fun h => ⟨hsize, fun b hb => hf.ascii b (hinfo ▸ hb), hshown ▸ h⟩⟩

/-! ### A character goes into the line -/

section Insert

variable {f : Field} {row : List QChar} {p : Nat} {ch : QChar}

/-- A field on the left stays. -/
theorem spelled_insert_left (h : Spelled f row) (hlt : f.mEnd.toNat < p) : Spelled f (row.insertIdx p ch) := by
  have hsize := h.size
  rw [spelled_iff_of_info h rfl h.size, spelledAt_insertIdx_before (by rw [f.length_shown]; omega)]
  exact h.text

/-- A field on the right that stays must be spelled one column to the left. -/
theorem spelled_insert_right (h : Spelled f row) (hlt : p < f.mStart.toNat) :
    Spelled f (row.insertIdx p ch) ↔ SpelledAt f.shown row (f.mStart.toNat - 1) := by
  have hbehind : SpelledAt f.shown (row.insertIdx p ch) (f.mStart.toNat - 1 + 1) ↔
      SpelledAt f.shown row (f.mStart.toNat - 1) := spelledAt_insertIdx_behind (by omega)
  rw [Nat.sub_add_cancel (by omega)] at hbehind
  rw [spelled_iff_of_info h rfl h.size, hbehind]

/-- A field on the right that moves with the text. -/
theorem spelled_insert_shiftRight (hrow : row.length < 2 ^ 31) (h : Spelled f row) (hlt : p < f.mStart.toNat) :
    Spelled f.shiftRight (row.insertIdx p ch) := by
  rcases h.end_le_or with hend | ⟨hnil, heq⟩
  · have hsize := h.size
    have hstart : (f.mStart + 1).toNat = f.mStart.toNat + 1 := by
      rw [UInt32.toNat_add, one_toNat]
      omega
    have hstop : (f.mEnd + 1).toNat = f.mEnd.toNat + 1 := by
      rw [UInt32.toNat_add, one_toNat]
      omega
    refine (spelled_iff_of_info h f.shiftRight_mInfo ?_).mpr ?_
    · rw [Field.shiftRight_mEnd, Field.shiftRight_mStart, Field.shiftRight_mInfo, hstart, hstop]
      omega
    · rw [Field.shiftRight_mStart, hstart, spelledAt_insertIdx_behind (by omega)]
      exact h.text
  · exact spelled_of_nil hnil (by rw [Field.shiftRight_mEnd, Field.shiftRight_mStart, UInt32.toNat_inj.mp heq])

/-- A field on the left that is moved must be spelled one column to the right. -/
theorem spelled_insert_left_shiftRight (hp : p < 2 ^ 31) (h : Spelled f row) (hlt : f.mEnd.toNat < p) :
    Spelled f.shiftRight (row.insertIdx p ch) ↔ SpelledAt f.shown row (f.mStart.toNat + 1) := by
  have hsize := h.size
  have hstart : (f.mStart + 1).toNat = f.mStart.toNat + 1 := by
    rw [UInt32.toNat_add, one_toNat]
    omega
  have hstop : (f.mEnd + 1).toNat = f.mEnd.toNat + 1 := by
    rw [UInt32.toNat_add, one_toNat]
    omega
  have hmoved : f.shiftRight.mEnd.toNat = f.shiftRight.mStart.toNat + f.shiftRight.mInfo.length := by
    rw [Field.shiftRight_mEnd, Field.shiftRight_mStart, Field.shiftRight_mInfo, hstart, hstop]
    omega
  rw [spelled_iff_of_info h f.shiftRight_mInfo hmoved, Field.shiftRight_mStart, hstart,
    spelledAt_insertIdx_before (by rw [f.length_shown]; omega)]

theorem toLatin1_toUInt16 (hch : ch < 128) : (QChar.toLatin1 ch).toUInt16 = ch :=
  (QChar.toUInt16_toLatin1 ch).mpr (UInt16.le_of_lt (UInt16.lt_trans hch (by decide)))

theorem toLatin1_lt (hch : ch < 128) : QChar.toLatin1 ch < 128 := by
  rw [UInt8.lt_iff_toNat_lt, ← UInt8.toNat_toUInt16, toLatin1_toUInt16 hch]
  exact UInt16.lt_iff_toNat_lt.mp hch

/-- The character in the structure is the one in the document only when it has 7 bits. -/
theorem lt_of_toLatin1 (hlt : QChar.toLatin1 ch < 128) (heq : (QChar.toLatin1 ch).toUInt16 = ch) : ch < 128 := by
  rw [UInt16.lt_iff_toNat_lt, ← heq, UInt8.toNat_toUInt16]
  exact UInt8.lt_iff_toNat_lt.mp hlt

/-- The offset of the cursor in a field that contains it. -/
theorem toNat_ofNat_sub (hp : p < 2 ^ 32) (hle : f.mStart.toNat ≤ p) :
    (UInt32.ofNat p - f.mStart).toNat = p - f.mStart.toNat := by
  have hnat : (UInt32.ofNat p).toNat = p := by
    rw [UInt32.toNat_ofNat']
    omega
  rw [UInt32.toNat_sub_of_le _ _ (by rw [UInt32.le_iff_toNat_le, hnat]; exact hle), hnat]

theorem shown_withChar {c : UInt8} (hp : p < 2 ^ 32) (hle : f.mStart.toNat ≤ p)
    (hlen : p ≤ f.mStart.toNat + f.mInfo.length) :
    (f.withChar c (UInt32.ofNat p)).shown = f.shown.insertIdx (p - f.mStart.toNat) c.toUInt16 := by
  rw [insertIdx_eq_append (by rw [f.length_shown]; omega)]
  simp [Field.shown, Field.withChar, toNat_ofNat_sub hp hle]

/-- The field that is typed into has the new character at the cursor column. -/
theorem lt_of_spelled_withChar {row' : List QChar} (hp : p < 2 ^ 32) (h : Spelled f row) (hle : f.mStart.toNat ≤ p)
    (hge : p ≤ f.mEnd.toNat) (hch : row'[p]? = some ch)
    (h' : Spelled (f.withChar (QChar.toLatin1 ch) (UInt32.ofNat p)) row') : ch < 128 := by
  have hlen : p ≤ f.mStart.toNat + f.mInfo.length := h.size ▸ hge
  refine lt_of_toLatin1 (h'.ascii _ (by simp [Field.withChar])) ?_
  have htext := h'.text
  rw [shown_withChar hp hle hlen] at htext
  have hget := htext.getElem? (k := p - f.mStart.toNat)
    (by rw [List.length_insertIdx_of_le_length (by rw [f.length_shown]; omega), f.length_shown]; omega)
  have hstart : (f.withChar (QChar.toLatin1 ch) (UInt32.ofNat p)).mStart = f.mStart := rfl
  rw [hstart, Nat.add_sub_cancel' hle, hch, List.getElem?_insertIdx_self,
    if_pos (by rw [f.length_shown]; omega)] at hget
  exact (Option.some.inj hget).symm

theorem spelled_withChar (hrow : row.length < 2 ^ 31) (hp : p ≤ row.length) (hch : ch < 128) (h : Spelled f row)
    (hle : f.mStart.toNat ≤ p) (hge : p ≤ f.mEnd.toNat) :
    Spelled (f.withChar (QChar.toLatin1 ch) (UInt32.ofNat p)) (row.insertIdx p ch) := by
  have hsize := h.size
  have hlen : p ≤ f.mStart.toNat + f.mInfo.length := hsize ▸ hge
  have hoff := toNat_ofNat_sub (by omega) hle
  refine ⟨?_, ?_, ?_⟩
  · have hstop : f.mEnd.toNat + 1 < 2 ^ 32 := by
      rcases h.end_le_or with hend | ⟨-, heq⟩ <;> omega
    show (f.mEnd + 1).toNat = f.mStart.toNat + _
    rw [UInt32.toNat_add, one_toNat]
    simp only [Field.withChar, hoff, List.length_append, List.length_take, List.length_drop, List.length_singleton]
    omega
  · intro b hb
    simp only [Field.withChar, List.mem_append, List.mem_singleton] at hb
    rcases hb with (hb | rfl) | hb
    · exact h.ascii b (List.mem_of_mem_take hb)
    · exact toLatin1_lt hch
    · exact h.ascii b (List.mem_of_mem_drop hb)
  · rw [shown_withChar (by omega) hle hlen, toLatin1_toUInt16 hch]
    exact h.text.insertIdx hle (by rw [f.length_shown]; exact hlen) hp

theorem lt_of_spelled_newText {row' : List QChar} {n : Nat} (hp : p < 2 ^ 32) (hch : row'[p]? = some ch)
    (h' : Spelled (.newText n (UInt32.ofNat p) (QChar.toLatin1 ch)) row') : ch < 128 := by
  refine lt_of_toLatin1 (h'.ascii _ (List.mem_singleton.mpr rfl)) ?_
  have hget := h'.text.getElem? (k := 0) (by simp [Field.newText])
  have hnat : (UInt32.ofNat p).toNat = p := by
    rw [UInt32.toNat_ofNat']
    omega
  simp only [Field.newText, Field.shown, List.map_cons, List.map_nil, hnat, Nat.add_zero, hch] at hget
  simpa using hget.symm

theorem spelled_newText {n : Nat} (hrow : row.length < 2 ^ 31) (hp : p ≤ row.length) (hch : ch < 128) :
    Spelled (.newText n (UInt32.ofNat p) (QChar.toLatin1 ch)) (row.insertIdx p ch) := by
  have hnat : (UInt32.ofNat p).toNat = p := by
    rw [UInt32.toNat_ofNat']
    omega
  refine ⟨?_, ?_, ?_⟩
  · show (UInt32.ofNat p + 1).toNat = (UInt32.ofNat p).toNat + 1
    rw [UInt32.toNat_add, hnat, one_toNat]
    omega
  · intro b hb
    obtain rfl : b = QChar.toLatin1 ch := by simpa [Field.newText] using hb
    exact toLatin1_lt hch
  · show SpelledAt [(QChar.toLatin1 ch).toUInt16] (row.insertIdx p ch) (UInt32.ofNat p).toNat
    rw [hnat, toLatin1_toUInt16 hch]
    have hnil : SpelledAt [] row p := spelledAt_nil
    simpa using hnil.insertIdx (c := ch) (le_refl p) (le_refl p) hp

end Insert

/-! ### A character goes out of the line -/

section Erase

variable {f : Field} {row : List QChar} {x : Nat}

theorem spelled_erase_left (h : Spelled f row) (hlt : f.mEnd.toNat < x) : Spelled f (row.eraseIdx (x - 1)) := by
  have hsize := h.size
  rw [spelled_iff_of_info h rfl h.size, spelledAt_eraseIdx_before (by rw [f.length_shown]; omega)]
  exact h.text

/-- A field on the right that stays must be spelled one column to the right. -/
theorem spelled_erase_right (hx : 0 < x) (h : Spelled f row) (hle : x ≤ f.mStart.toNat) :
    Spelled f (row.eraseIdx (x - 1)) ↔ SpelledAt f.shown row (f.mStart.toNat + 1) := by
  rw [spelled_iff_of_info h rfl h.size, spelledAt_eraseIdx_behind (by omega)]

/-- A field on the right that moves with the text. -/
theorem spelled_erase_shiftLeft (h : Spelled f row) (hlt : x < f.mStart.toNat) :
    Spelled f.shiftLeft (row.eraseIdx (x - 1)) := by
  have hsize := h.size
  have hstart := toNat_sub_one (c := f.mStart) (by omega)
  have hstop := toNat_sub_one (c := f.mEnd) (by omega)
  refine (spelled_iff_of_info h f.shiftLeft_mInfo ?_).mpr ?_
  · rw [Field.shiftLeft_mEnd, Field.shiftLeft_mStart, Field.shiftLeft_mInfo, hstart, hstop]
    omega
  · rw [Field.shiftLeft_mStart, hstart, spelledAt_eraseIdx_behind (by omega), Nat.sub_add_cancel (by omega)]
    exact h.text

/-- A field on the left that is moved must be spelled one column to the left, and there must be one. -/
theorem spelled_erase_left_shiftLeft (h : Spelled f row) (hlt : f.mEnd.toNat < x) :
    Spelled f.shiftLeft (row.eraseIdx (x - 1)) ↔
      (f.mStart.toNat = 0 → f.mInfo = []) ∧ SpelledAt f.shown row (f.mStart.toNat - 1) := by
  have hsize := h.size
  by_cases hnil : f.mInfo = []
  · have hempty : f.shown = [] := by rw [Field.shown, hnil]; rfl
    have heq : f.mEnd = f.mStart := UInt32.toNat_inj.mp (by rw [hsize, hnil]; rfl)
    rw [hempty]
    refine iff_of_true (spelled_of_nil hnil ?_) ⟨fun _ => hnil, spelledAt_nil⟩
    rw [Field.shiftLeft_mEnd, Field.shiftLeft_mStart, heq]
  · have hlen := List.length_pos_iff.mpr hnil
    have hstop := toNat_sub_one (c := f.mEnd) (by omega)
    by_cases hzero : f.mStart.toNat = 0
    · refine iff_of_false (fun h' => ?_) (fun h' => hnil (h'.1 hzero))
      have hsize' := h'.size
      have hstart : (f.mStart - 1).toNat = 2 ^ 32 - 1 := by
        rw [UInt32.toNat_inj.mp (hzero.trans rfl : f.mStart.toNat = (0 : UInt32).toNat)]
        rfl
      rw [Field.shiftLeft_mEnd, Field.shiftLeft_mStart, Field.shiftLeft_mInfo, hstart, hstop] at hsize'
      have hmax := f.mEnd.toNat_lt
      omega
    · have hstart := toNat_sub_one (c := f.mStart) (by omega)
      have hmoved : f.shiftLeft.mEnd.toNat = f.shiftLeft.mStart.toNat + f.shiftLeft.mInfo.length := by
        rw [Field.shiftLeft_mEnd, Field.shiftLeft_mStart, Field.shiftLeft_mInfo, hstart, hstop]
        omega
      rw [spelled_iff_of_info h f.shiftLeft_mInfo hmoved, Field.shiftLeft_mStart, hstart,
        spelledAt_eraseIdx_before (by rw [f.length_shown]; omega)]
      simp [hzero]

/-- The field that loses its character. -/
theorem spelled_withoutChar (h : Spelled f row) (hlt : f.mStart.toNat < x) (hle : x ≤ f.mEnd.toNat) :
    Spelled (f.withoutChar (UInt32.ofNat x - 1)) (row.eraseIdx (x - 1)) := by
  have hsize := h.size
  have hmax := f.mEnd.toNat_lt
  have hnat : (UInt32.ofNat x).toNat = x := by
    rw [UInt32.toNat_ofNat']
    omega
  have hpred : UInt32.ofNat x - 1 = UInt32.ofNat (x - 1) := by
    rw [← UInt32.toNat_inj, toNat_sub_one (by omega), hnat, UInt32.toNat_ofNat']
    omega
  have hoff : (UInt32.ofNat (x - 1) - f.mStart).toNat = x - 1 - f.mStart.toNat := toNat_ofNat_sub (by omega) (by omega)
  rw [hpred]
  refine ⟨?_, ?_, ?_⟩
  · show (f.mEnd - 1).toNat = f.mStart.toNat + _
    rw [toNat_sub_one (by omega)]
    simp only [Field.withoutChar, hoff, List.length_append, List.length_take, List.length_drop]
    omega
  · intro b hb
    simp only [Field.withoutChar, List.mem_append] at hb
    rcases hb with hb | hb
    · exact h.ascii b (List.mem_of_mem_take hb)
    · exact h.ascii b (List.mem_of_mem_drop hb)
  · have hshown : (f.withoutChar (UInt32.ofNat (x - 1))).shown = f.shown.eraseIdx (x - 1 - f.mStart.toNat) := by
      rw [List.eraseIdx_eq_take_drop_succ]
      simp [Field.shown, Field.withoutChar, hoff]
    rw [hshown]
    exact h.text.eraseIdx (by omega) (by rw [f.length_shown]; omega)

end Erase

end MetaEditor
