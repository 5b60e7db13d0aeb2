import MetaEditor.Data.Order
import MetaEditor.Data.Removal
import MetaEditor.Lib.Row

/-!
# The row of a line

A well-formed line has its fields from left to right, each as wide as its text is long. Its `row` shows
every text at its columns and blanks between them. Typing into a field and removing from one are then the
insertion and the deletion of one column of the row, whatever fields and gaps there are, and a removal
right behind a typed character undoes it.
-/

namespace MetaEditor

open Lib

/-- A blank of the row. -/
def blank : UInt8 := 0x20

/-- What the columns of a line show. -/
def row (fields : List Field) : Nat → UInt8 := rowOf (fun f : Field => f.mStart.toNat) Field.mInfo blank fields

/-- Fields from left to right, each as wide as its text. -/
structure Shaped (fields : List Field) : Prop where
  indexed : Indexed fields
  size : ∀ f ∈ fields, f.mEnd.toNat = f.mStart.toNat + f.mInfo.length
  next : fields.IsChain fun f g => f.mEnd < g.mStart

structure WellFormed (fields : List Field) : Prop extends Shaped fields where
  ascii : ∀ f ∈ fields, ∀ b ∈ f.mInfo, b < 128

theorem Shaped.ordered {fields : List Field} (h : Shaped fields) : Ordered fields := by
  refine .of_isChain (fun f hf => ?_) (h.next.imp fun f g hlt => UInt32.lt_iff_toNat_lt.mp hlt)
  rw [h.size f hf]
  exact Nat.le_add_right _ _

theorem Shaped.of_ordered {fields : List Field} (hindexed : Indexed fields) (hordered : Ordered fields)
    (hsize : ∀ f ∈ fields, f.mEnd.toNat = f.mStart.toNat + f.mInfo.length) : Shaped fields where
  indexed := hindexed
  size := hsize
  next := (hordered.apart.imp UInt32.lt_iff_toNat_lt.mpr).isChain

theorem Shaped.shows {fields : List Field} (h : Shaped fields) :
    Shows (fun f : Field => f.mStart.toNat) Field.mInfo blank fields (row fields) := by
  refine shows_rowOf (h.ordered.apart.imp_of_mem fun {f g} hf _ hlt => ?_)
  rw [← h.size f hf]
  exact hlt.le

/-- In a line that is in order a column finds the field that contains it. -/
theorem firstAt_of_ordered {fields : List Field} (h : Ordered fields) {i : Nat} {f : Field} {col : UInt32}
    (hf : fields[i]? = some f) (hin : f.atRange col = true) : FirstAt fields col i f := by
  refine firstAt_of_unique hf hin fun j g hg hgin => ?_
  have hcol := Field.atRange_eq_true.mp hgin
  have hcol' := Field.atRange_eq_true.mp hin
  simp only [UInt32.le_iff_toNat_le] at hcol hcol'
  exact h.index_unique hg hf hcol hcol'

theorem Field.mInfo_withChar {f : Field} {col : UInt32} (hle : (col - f.mStart).toNat ≤ f.mInfo.length) (c : UInt8) :
    (f.withChar c col).mInfo = f.mInfo.insertIdx (col - f.mStart).toNat c := (insertIdx_eq_append hle).symm

theorem Field.mInfo_withoutChar (f : Field) (pos : UInt32) :
    (f.withoutChar pos).mInfo = f.mInfo.eraseIdx (pos - f.mStart).toNat := (List.eraseIdx_eq_take_drop_succ _ _).symm

/-! ### Inside the field between `before` and `after` -/

namespace Shaped

variable {before after : List Field} {f : Field} {col : UInt32}

theorem around (h : Shaped (before ++ f :: after)) :
    (∀ g ∈ before, g.mStart.toNat + g.mInfo.length < f.mStart.toNat) ∧
      ∀ g ∈ after, f.mStart.toNat + f.mInfo.length < g.mStart.toNat := by
  obtain ⟨-, hright, hleft⟩ := List.pairwise_append.mp h.ordered.apart
  refine ⟨fun g hg => ?_, fun g hg => ?_⟩
  · rw [← h.size g (List.mem_append_left _ hg)]
    exact hleft g hg f List.mem_cons_self
  · rw [← h.size f (List.mem_append_right _ List.mem_cons_self)]
    exact (List.pairwise_cons.mp hright).1 g hg

/-- A column of the field is an offset into its text. -/
theorem offset (h : Shaped (before ++ f :: after)) (hin : f.atRange col = true) :
    f.mStart.toNat ≤ col.toNat ∧ (col - f.mStart).toNat = col.toNat - f.mStart.toNat ∧
      (col - f.mStart).toNat ≤ f.mInfo.length := by
  obtain ⟨hlow, hhigh⟩ := Field.atRange_eq_true.mp hin
  have hsub := UInt32.toNat_sub_of_le _ _ hlow
  have hsize := h.size f (List.mem_append_right _ List.mem_cons_self)
  rw [UInt32.le_iff_toNat_le] at hlow hhigh
  omega

theorem firstAt (h : Shaped (before ++ f :: after)) (hin : f.atRange col = true) :
    FirstAt (before ++ f :: after) col before.length f := by
  refine firstAt_of_ordered h.ordered ?_ hin
  rw [List.getElem?_append_right (le_refl _), Nat.sub_self, List.getElem?_cons_zero]

/-- Every column has one on its right. -/
def Room (fields : List Field) : Prop := ∀ g ∈ fields, g.mEnd.toNat + 1 < 2 ^ 32

instance (fields : List Field) : Decidable (Room fields) := inferInstanceAs (Decidable (∀ g ∈ fields, _))

/-- Typing keeps the shape. -/
theorem typed (h : Shaped (before ++ f :: after)) (hroom : Room (before ++ f :: after)) (hin : f.atRange col = true)
    (htype : f.mType ≠ .title) (c : UInt8) :
    Shaped (before ++ f.withChar c col :: after.map Field.shiftRight) := by
  obtain ⟨-, -, hle⟩ := h.offset hin
  have hfirst := h.firstAt hin
  have hstep : LineManager.FieldsStep (.eventFilter col 0 c) _ _ := .typed hfirst htype hle
  have hindexed := LineManager.indexed_fieldsStep h.indexed hstep
  have hordered := LineManager.ordered_typed (c := c) h.indexed h.ordered hfirst hroom
  rw [h.indexed _ f hfirst.get, Line.edit_middle] at hindexed hordered
  obtain ⟨hbefore, hf, hafter⟩ := forall_mem_middle.mp h.size
  obtain ⟨-, hfroom, hafterRoom⟩ := forall_mem_middle.mp hroom
  refine .of_ordered hindexed hordered (forall_mem_middle.mpr ⟨hbefore, ?_, ?_⟩)
  · have hend : (f.withChar c col).mEnd.toNat = f.mEnd.toNat + 1 := toNat_add_one_of_lt hfroom
    rw [Field.mInfo_withChar hle, List.length_insertIdx_of_le_length hle, hend, hf]
    rfl
  · rw [List.forall_mem_map]
    intro g hg
    have hsize := hafter g hg
    obtain ⟨hstart, hend⟩ := Field.toNat_shiftRight (f := g) (by omega) (hafterRoom g hg)
    rw [hstart, hend, Field.shiftRight_mInfo]
    omega

/-- Typing inserts its column in the row. -/
theorem row_typed (h : Shaped (before ++ f :: after)) (hroom : Room (before ++ f :: after)) (hin : f.atRange col = true)
    (htype : f.mType ≠ .title) (c : UInt8) :
    row (before ++ f.withChar c col :: after.map Field.shiftRight) =
      insertColumn (row (before ++ f :: after)) col.toNat c := by
  obtain ⟨hlow, hoff, hle⟩ := h.offset hin
  obtain ⟨hbefore, hafter⟩ := h.around
  refine (h.typed hroom hin htype c).shows.unique (h.shows.insert (fun g hg => ?_) hlow (by omega) (fun g hg => ?_) rfl ?_
    fun g hg => ?_)
  · have hleft := hbefore g hg
    omega
  · have hright := hafter g hg
    omega
  · rw [Field.mInfo_withChar hle, hoff]
  · have hmem : g ∈ before ++ f :: after := List.mem_append_right _ (List.mem_cons_of_mem _ hg)
    have hsize := h.size g hmem
    exact ⟨(Field.toNat_shiftRight (by omega) (hroom g hmem)).1, rfl⟩

/-- The offset of the character before a column. -/
theorem offset_before (h : Shaped (before ++ f :: after)) (hin : f.atRange col = true) (hlt : f.mStart < col) :
    f.mStart.toNat ≤ col.toNat - 1 ∧ (col - 1 - f.mStart).toNat = col.toNat - 1 - f.mStart.toNat ∧
      (col - 1 - f.mStart).toNat < f.mInfo.length := by
  obtain ⟨hlow, hoff, hle⟩ := h.offset hin
  have hlater := Field.offset_later hin (UInt32.ne_of_lt hlt).symm
  rw [UInt32.lt_iff_toNat_lt] at hlt
  omega

/-- Removing keeps the shape. -/
theorem removed (h : Shaped (before ++ f :: after)) (hin : f.atRange col = true) (hlt : f.mStart < col) :
    Shaped (before ++ f.withoutChar (col - 1) :: after.map Field.shiftLeft) := by
  obtain ⟨-, -, hle⟩ := h.offset_before hin hlt
  have hfirst := h.firstAt hin
  have hstep : LineManager.FieldsStep (.removeCharacter col 0) _ _ := .removed hfirst hle.le
  have hindexed := LineManager.indexed_fieldsStep h.indexed hstep
  have hordered := LineManager.ordered_removed h.indexed h.ordered hfirst hle.le fun heq => absurd heq (UInt32.ne_of_lt hlt)
  rw [h.indexed _ f hfirst.get, Line.edit_middle] at hindexed hordered
  obtain ⟨hbefore, hf, hafter⟩ := forall_mem_middle.mp h.size
  refine .of_ordered hindexed hordered (forall_mem_middle.mpr ⟨hbefore, ?_, ?_⟩)
  · have hend := toNat_sub_one (c := f.mEnd) (by omega)
    rw [Field.mInfo_withoutChar, List.length_eraseIdx_of_lt hle]
    show (f.mEnd - 1).toNat = f.mStart.toNat + (f.mInfo.length - 1)
    omega
  · rw [List.forall_mem_map]
    intro g hg
    have hsize := hafter g hg
    have hright := h.around.2 g hg
    obtain ⟨hstart, hend⟩ := Field.toNat_shiftLeft (f := g) (by omega) (by omega)
    rw [hstart, hend, Field.shiftLeft_mInfo]
    omega

/-- Removing deletes the column before the cursor. -/
theorem row_removed (h : Shaped (before ++ f :: after)) (hin : f.atRange col = true) (hlt : f.mStart < col) :
    row (before ++ f.withoutChar (col - 1) :: after.map Field.shiftLeft) =
      deleteColumn (row (before ++ f :: after)) (col.toNat - 1) := by
  obtain ⟨hlow, hoff, hle⟩ := h.offset_before hin hlt
  obtain ⟨hbefore, hafter⟩ := h.around
  refine (h.removed hin hlt).shows.unique (h.shows.delete (fun g hg => ?_) hlow (by omega) (fun g hg => ?_) rfl ?_
    fun g hg => ?_)
  · have hleft := hbefore g hg
    omega
  · have hright := hafter g hg
    omega
  · rw [Field.mInfo_withoutChar, hoff]
  · have hright := hafter g hg
    have hstart : g.shiftLeft.mStart.toNat = g.mStart.toNat - 1 := toNat_sub_one (by omega)
    exact ⟨by omega, rfl⟩

end Shaped

section

variable {before after : List Field} {f : Field} {col : UInt32}

/-- Typing a 7-bit character keeps a line well formed. -/
theorem WellFormed.typed (h : WellFormed (before ++ f :: after)) (hroom : Shaped.Room (before ++ f :: after))
    (hin : f.atRange col = true) (htype : f.mType ≠ .title) {c : UInt8} (hc : c < 128) :
    WellFormed (before ++ f.withChar c col :: after.map Field.shiftRight) := by
  obtain ⟨hbefore, hf, hafter⟩ := forall_mem_middle.mp h.ascii
  refine ⟨h.toShaped.typed hroom hin htype c, forall_mem_middle.mpr ⟨hbefore, fun b hb => ?_, List.forall_mem_map.mpr hafter⟩⟩
  rw [Field.mInfo_withChar (h.offset hin).2.2] at hb
  rcases List.eq_or_mem_of_mem_insertIdx hb with rfl | hb
  · exact hc
  · exact hf b hb

/-- Removing keeps a line well formed. -/
theorem WellFormed.removed (h : WellFormed (before ++ f :: after)) (hin : f.atRange col = true) (hlt : f.mStart < col) :
    WellFormed (before ++ f.withoutChar (col - 1) :: after.map Field.shiftLeft) := by
  obtain ⟨hbefore, hf, hafter⟩ := forall_mem_middle.mp h.ascii
  refine ⟨h.toShaped.removed hin hlt, forall_mem_middle.mpr ⟨hbefore, fun b hb => ?_, List.forall_mem_map.mpr hafter⟩⟩
  rw [Field.mInfo_withoutChar] at hb
  exact hf b (List.mem_of_mem_eraseIdx hb)

end

attribute [ext] Field

theorem Field.withoutChar_withChar {f : Field} {col : UInt32} (hle : (col - f.mStart).toNat ≤ f.mInfo.length)
    (c : UInt8) : (f.withChar c col).withoutChar (col + 1 - 1) = f := by
  have hinfo : ((f.withChar c col).withoutChar (col + 1 - 1)).mInfo = f.mInfo := by
    rw [mInfo_withoutChar, mInfo_withChar hle, UInt32.add_sub_cancel]
    exact List.eraseIdx_insertIdx_self c
  have hend : ((f.withChar c col).withoutChar (col + 1 - 1)).mEnd = f.mEnd := UInt32.add_sub_cancel _ _
  exact Field.ext rfl rfl rfl hend hinfo

theorem Field.shiftLeft_shiftRight (f : Field) : f.shiftRight.shiftLeft = f :=
  Field.ext rfl rfl (UInt32.add_sub_cancel _ _) (UInt32.add_sub_cancel _ _) rfl

namespace LineManager

open Shaped

theorem write_self {lm : LineManager} {line : UInt32} {ptr : Line} (h : lm.get? line = some ptr) :
    lm.write line ptr = lm := by
  obtain ⟨lines⟩ := lm
  simp only [write, LineManager.mk.injEq]
  refine Std.ExtTreeMap.ext_getElem? fun k => ?_
  rw [Std.ExtTreeMap.getElem?_insert]
  split_ifs with hk
  · rw [← Std.LawfulEqCmp.compare_eq_iff_eq.mp hk]
    exact h.symm
  · rfl

/-- A removal behind the typed character undoes it. -/
theorem removeCharacter_typed {lm : LineManager} {line col : UInt32} {ptr : Line} {before after : List Field} {f : Field}
    (hget : lm.get? line = some ptr) (hsplit : ptr.mFields = before ++ f :: after) (h : Shaped (before ++ f :: after))
    (hroom : Room (before ++ f :: after)) (hin : f.atRange col = true) (htype : f.mType ≠ .title) (c : UInt8) :
    (lm.write line (ptr.setFields (before ++ f.withChar c col :: after.map Field.shiftRight))).removeCharacter
      (col + 1) line = .ok lm := by
  have hle := (h.offset hin).2.2
  have hpos : (f.withChar c col).mPosition = before.length := h.indexed _ f (h.firstAt hin).get
  have hin' : (f.withChar c col).atRange (col + 1) = true := by
    obtain ⟨hlow, hhigh⟩ := Field.atRange_eq_true.mp hin
    have hlt := hroom f (List.mem_append_right _ List.mem_cons_self)
    rw [UInt32.le_iff_toNat_le] at hlow hhigh
    rw [Field.atRange_eq_true, UInt32.le_iff_toNat_le, UInt32.le_iff_toNat_le]
    show f.mStart.toNat ≤ (col + 1).toNat ∧ (col + 1).toNat ≤ (f.mEnd + 1).toNat
    rw [UInt32.toNat_add, UInt32.toNat_add, one_toNat]
    omega
  have hle' : (col + 1 - 1 - (f.withChar c col).mStart).toNat ≤ (f.withChar c col).mInfo.length := by
    rw [UInt32.add_sub_cancel, Field.mInfo_withChar hle, List.length_insertIdx_of_le_length hle]
    exact hle.trans (Nat.le_succ _)
  have hfirst := (h.typed hroom hin htype c).firstAt hin'
  rw [← Line.setFields_mFields ptr (before ++ f.withChar c col :: _), ← fields_write_self lm line (ptr.setFields _)] at hfirst
  rw [removeCharacter_of_le hfirst hle', hpos, fields_write_self, lineFor_write_self, Line.setFields_mFields,
    Line.edit_middle, Field.withoutChar_withChar hle, List.map_map]
  have hmap : after.map (Field.shiftLeft ∘ Field.shiftRight) = after := by
    rw [show Field.shiftLeft ∘ Field.shiftRight = id from funext Field.shiftLeft_shiftRight, List.map_id]
  rw [hmap, write_write, ← hsplit]
  exact congrArg Except.ok (write_self hget)

/-- Editing inside a field of a well-formed line: typing and removing are exact on the row and keep the
line well formed, and a removal behind the typed character gives the structure back. -/
theorem editing_exact {lm : LineManager} {line col : UInt32} {ptr : Line} {i : Nat} {f : Field}
    (hget : lm.get? line = some ptr) (h : WellFormed ptr.mFields) (hroom : Room ptr.mFields)
    (hf : ptr.mFields[i]? = some f) (htype : f.mType ≠ .title) (hlow : f.mStart ≤ col) (hhigh : col ≤ f.mEnd) (c : UInt8) :
    (∃ lm', lm.eventFilter col line c = .ok (true, lm') ∧ (c < 128 → WellFormed (lm'.fields line)) ∧
      row (lm'.fields line) = insertColumn (row ptr.mFields) col.toNat c ∧
      lm'.removeCharacter (col + 1) line = .ok lm) ∧
    (f.mStart < col → ∃ lm', lm.removeCharacter col line = .ok lm' ∧ WellFormed (lm'.fields line) ∧
      row (lm'.fields line) = deleteColumn (row ptr.mFields) (col.toNat - 1)) := by
  have hin : f.atRange col = true := Field.atRange_eq_true.mpr ⟨hlow, hhigh⟩
  have hpos := h.indexed i f hf
  obtain ⟨before, after, hsplit, rfl⟩ := exists_middle_of_getElem? hf
  rw [hsplit] at h hroom ⊢
  have hline : lm.fields line = before ++ f :: after := (fields_of_get? hget).trans hsplit
  have hfirst : FirstAt (lm.fields line) col before.length f := hline ▸ h.firstAt hin
  refine ⟨⟨_, eventFilter_of_le hfirst htype (h.offset hin).2.2, ?_⟩, fun hlt => ?_⟩
  · rw [hpos, hline, lineFor_of_get? hget, Line.edit_middle, fields_write_self, Line.setFields_mFields]
    exact ⟨h.typed hroom hin htype, h.row_typed hroom hin htype c,
      removeCharacter_typed hget hsplit h.toShaped hroom hin htype c⟩
  · refine ⟨_, removeCharacter_of_le hfirst (h.offset_before hin hlt).2.2.le, ?_⟩
    rw [hpos, hline, Line.edit_middle, fields_write_self, Line.setFields_mFields]
    exact ⟨h.removed hin hlt, h.row_removed hin hlt⟩

/-- A name, a title and a text in line 3, and a character typed between the letters of the name. -/
theorem editing_exact_name :
    let fields : List Field := [⟨0, .name, 2, 4, [97, 98]⟩, ⟨1, .title, 6, 7, [84]⟩, ⟨2, .text, 9, 9, []⟩]
    let lm := empty.write 3 { mNumber := 3, mFields := fields }
    (∃ lm', lm.eventFilter 3 3 120 = .ok (true, lm') ∧ (120 < (128 : UInt8) → WellFormed (lm'.fields 3)) ∧
      row (lm'.fields 3) = insertColumn (row fields) 3 120 ∧ lm'.removeCharacter (3 + 1) 3 = .ok lm) ∧
    ((2 : UInt32) < 3 → ∃ lm', lm.removeCharacter 3 3 = .ok lm' ∧ WellFormed (lm'.fields 3) ∧
      row (lm'.fields 3) = deleteColumn (row fields) (3 - 1)) := by
  intro fields lm
  have hget : lm.get? 3 = some { mNumber := 3, mFields := fields } := (get?_write empty 3 3 _).trans (if_pos rfl)
  have hwell : WellFormed fields := by
    refine ⟨⟨fun i f hf => ?_, by decide, by decide⟩, by simp [fields]⟩
    match i with
    | 0 | 1 | 2 => rw [← Option.some.inj hf]
  exact editing_exact (i := 0) hget hwell (by decide : Room fields) rfl (by decide) (by decide) (by decide) 120

end LineManager

end MetaEditor
