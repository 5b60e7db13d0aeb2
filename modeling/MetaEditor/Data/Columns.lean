import MetaEditor.Data.Removal
import MetaEditor.Lib.Middle

/-!
# Columns that do not wrap

A new field begins below `2 ^ 31`, and from then on it moves on by a column for each byte that is typed
into a field before it, and back for each that is erased there. So it begins below `2 ^ 31` plus the text
before it (`Placed`), and while a line has less than `2 ^ 31` bytes no column reaches `2 ^ 32`. Nothing
keeps a field from moving back past column 0: the fields that move are those created later, wherever they
are.
-/

namespace MetaEditor

open Lib

/-- The bytes of all texts. -/
def textLength (fields : List Field) : Nat := (fields.map fun f => f.mInfo.length).sum

@[simp] theorem textLength_nil : textLength [] = 0 := rfl

@[simp] theorem textLength_cons (f : Field) (fields : List Field) :
    textLength (f :: fields) = f.mInfo.length + textLength fields := rfl

@[simp] theorem textLength_append (before after : List Field) :
    textLength (before ++ after) = textLength before + textLength after := by
  simp [textLength]

/-- The columns of a field in order, and no more than its bytes. -/
def Field.Upright (f : Field) : Prop :=
  f.mStart.toNat ≤ f.mEnd.toNat ∧ f.mEnd.toNat ≤ f.mStart.toNat + f.mInfo.length

/-- Each field begins below `b` and the text before it. -/
def Placed (b : Nat) : List Field → Prop
  | [] => True
  | f :: fields => f.Upright ∧ f.mStart.toNat < b ∧ Placed (b + f.mInfo.length) fields

namespace Placed

variable {b : Nat} {fields before after : List Field} {f : Field}

theorem append_iff : Placed b (before ++ after) ↔ Placed b before ∧ Placed (b + textLength before) after := by
  induction before generalizing b with
  | nil => exact (true_and _).to_iff.symm
  | cons f before ih =>
    rw [List.cons_append, Placed, Placed, ih, textLength_cons, Nat.add_assoc, and_assoc, and_assoc]

theorem upright (h : Placed b fields) (hf : f ∈ fields) : f.Upright := by
  obtain ⟨before, after, rfl⟩ := List.append_of_mem hf
  exact (append_iff.mp h).2.1

/-- No field ends beyond `b` and all the text. -/
theorem end_lt (h : Placed b fields) (hf : f ∈ fields) : f.mEnd.toNat < b + textLength fields := by
  obtain ⟨before, after, rfl⟩ := List.append_of_mem hf
  obtain ⟨⟨-, hend⟩, hstart, -⟩ := (append_iff.mp h).2
  rw [textLength_append, textLength_cons]
  omega

/-- The fields move on by a column. -/
theorem shiftRight (h : Placed b fields) (hroom : b + textLength fields < 2 ^ 32) :
    Placed (b + 1) (fields.map Field.shiftRight) := by
  induction fields generalizing b with
  | nil => exact trivial
  | cons f fields ih =>
    have hend := h.end_lt List.mem_cons_self
    obtain ⟨⟨hle, hbytes⟩, hstart, hrest⟩ := h
    rw [textLength_cons] at hroom hend
    obtain ⟨hstart', hend'⟩ := Field.toNat_shiftRight hle (by omega)
    refine ⟨⟨by omega, ?_⟩, by omega, ?_⟩
    · rw [Field.shiftRight_mInfo]
      omega
    · rw [Field.shiftRight_mInfo, Nat.add_right_comm]
      exact ih hrest (by omega)

/-- The fields move back by a column. -/
theorem shiftLeft (h : Placed (b + 1) fields) (hzero : ∀ f ∈ fields, f.mStart ≠ 0) :
    Placed b (fields.map Field.shiftLeft) := by
  induction fields generalizing b with
  | nil => exact trivial
  | cons f fields ih =>
    obtain ⟨⟨hle, hbytes⟩, hstart, hrest⟩ := h
    obtain ⟨hf, hzero⟩ := List.forall_mem_cons.mp hzero
    have hpos := toNat_pos hf
    obtain ⟨hstart', hend'⟩ := Field.toNat_shiftLeft hpos hle
    refine ⟨⟨by omega, ?_⟩, by omega, ?_⟩
    · rw [Field.shiftLeft_mInfo]
      omega
    · rw [Field.shiftLeft_mInfo]
      rw [Nat.add_right_comm] at hrest
      exact ih hrest hzero

end Placed

/-! ### One field -/

namespace Field.Upright

variable {f : Field} {col : UInt32}

theorem withChar (h : f.Upright) (hle : (col - f.mStart).toNat ≤ f.mInfo.length) (hroom : f.mEnd.toNat + 1 < 2 ^ 32)
    (c : UInt8) : (f.withChar c col).Upright ∧ (f.withChar c col).mEnd.toNat = f.mEnd.toNat + 1 := by
  obtain ⟨hstart, hbytes⟩ := h
  have hend : (f.withChar c col).mEnd.toNat = f.mEnd.toNat + 1 := toNat_add_one_of_lt hroom
  refine ⟨⟨?_, ?_⟩, hend⟩
  · rw [hend]
    exact hstart.trans (Nat.le_succ _)
  · rw [hend, length_withChar hle]
    exact Nat.succ_le_succ hbytes

/-- In a column that is not the first one there is a byte before it. -/
theorem offset_lt (h : f.Upright) (hin : f.atRange col = true) (hne : col ≠ f.mStart) :
    (col - 1 - f.mStart).toNat < f.mInfo.length := by
  obtain ⟨hstart, hbytes⟩ := h
  obtain ⟨hlow, hhigh⟩ := atRange_eq_true.mp hin
  have hoff := offset_later hin hne
  rw [UInt32.toNat_sub_of_le _ _ hlow] at hoff
  rw [UInt32.le_iff_toNat_le] at hlow hhigh
  omega

theorem withoutChar (h : f.Upright) (hin : f.atRange col = true) (hne : col ≠ f.mStart) :
    (f.withoutChar (col - 1)).Upright ∧ (f.withoutChar (col - 1)).mEnd.toNat + 1 = f.mEnd.toNat := by
  have hlength := length_withoutChar (h.offset_lt hin hne)
  obtain ⟨hstart, hbytes⟩ := h
  obtain ⟨hlow, hhigh⟩ := atRange_eq_true.mp hin
  have hlt : f.mStart.toNat ≠ col.toNat := fun heq => hne (UInt32.toNat_inj.mp heq).symm
  rw [UInt32.le_iff_toNat_le] at hlow hhigh
  have hend : (f.withoutChar (col - 1)).mEnd.toNat = f.mEnd.toNat - 1 := toNat_sub_one (by omega)
  have hsame : (f.withoutChar (col - 1)).mStart = f.mStart := rfl
  refine ⟨⟨?_, ?_⟩, by omega⟩
  · rw [hend, hsame]
    omega
  · rw [hend, hsame]
    omega

end Field.Upright

/-- Neither end of the field moves by more than a column. -/
def Moved (f g : Field) : Prop :=
  (g.mStart.toNat ≤ f.mStart.toNat + 1 ∧ f.mStart.toNat ≤ g.mStart.toNat + 1) ∧
    g.mEnd.toNat ≤ f.mEnd.toNat + 1 ∧ f.mEnd.toNat ≤ g.mEnd.toNat + 1

theorem Moved.refl (f : Field) : Moved f f := ⟨⟨Nat.le_succ _, Nat.le_succ _⟩, Nat.le_succ _, Nat.le_succ _⟩

theorem moved_shiftRight {f : Field} (h : f.Upright) (hroom : f.mEnd.toNat + 1 < 2 ^ 32) : Moved f f.shiftRight := by
  obtain ⟨hstart, hend⟩ := Field.toNat_shiftRight h.1 hroom
  unfold Moved
  omega

theorem moved_shiftLeft {f : Field} (h : f.Upright) (hzero : f.mStart ≠ 0) : Moved f f.shiftLeft := by
  have hpos := toNat_pos hzero
  obtain ⟨hstart, hend⟩ := Field.toNat_shiftLeft hpos h.1
  unfold Moved
  omega

/-- No field of an edited line moves by more than a column. -/
theorem moved_edit {fields : List Field} {i : Nat} {f f' : Field} {shift : Field → Field} (hf : fields[i]? = some f)
    (hedited : Moved f f') (hshifted : ∀ o ∈ fields.drop (i + 1), Moved o (shift o)) (j : Nat) (a b : Field)
    (ha : fields[j]? = some a) (hb : (Line.shiftFrom (i + 1) shift (fields.set i f'))[j]? = some b) : Moved a b := by
  rw [Line.getElem?_edit (List.getElem?_eq_some_iff.mp hf).1] at hb
  rcases hb with ⟨-, hb⟩ | ⟨rfl, rfl⟩ | ⟨hj, o, ho, rfl⟩
  · rw [Option.some.inj (ha.symm.trans hb)]
    exact .refl b
  · rwa [Option.some.inj (ha.symm.trans hf)]
  · rw [Option.some.inj (ha.symm.trans ho)]
    exact hshifted o (mem_drop_of_getElem? hj ho)

/-! ### One step -/

namespace LineManager

def Op.col : Op → UInt32
  | .eventFilter col _ _ | .addTitle _ col _ | .addName _ col _ | .removeCharacter col _ => col

/-- The columns and the text of the line stay below `2 ^ 31`. -/
def Bounded (lm : LineManager) (op : Op) : Prop :=
  op.col.toNat < 2 ^ 31 ∧ textLength ((lm.step op).fields op.line) < 2 ^ 31

/-- The fields that `removeCharacter` shifts left. -/
def shiftedLeft (lm : LineManager) : Op → List Field
  | .removeCharacter col line =>
    match lm.lineAt line with
    | .ok ptr =>
      match ptr.searchAtCol col with
      | some type =>
        match (ptr.mFields.get type).removeAt (col - 1) with
        | .ok field => ptr.mFields.drop (field.mPosition + 1)
        | .error _ => []
      | none => []
    | .error _ => []
  | _ => []

/-- No column wraps: each field ends at or behind its start, which it contains, each end moves by a column
at most, and no field that is shifted left begins in column 0. -/
structure NoWrap (lm : LineManager) (op : Op) : Prop where
  ends : ∀ line, ∀ f ∈ (lm.step op).fields line, f.mStart.toNat ≤ f.mEnd.toNat ∧ f.atRange f.mStart = true
  moves : ∀ line (j : Nat) f g, (lm.fields line)[j]? = some f → ((lm.step op).fields line)[j]? = some g → Moved f g
  shifted : ∀ f ∈ lm.shiftedLeft op, f.mStart ≠ 0

/-- A removal that is not in the first column of its field finds no later field in column 0. -/
def ZeroFree (fields : List Field) : Op → Prop
  | .removeCharacter col _ =>
    ∀ i ∈ fields.findIdx? (·.atRange col), (∀ f ∈ fields[i]?, f.mStart ≠ col) → ∀ g ∈ fields.drop (i + 1), g.mStart ≠ 0
  | _ => True

/-- The same for the line of the operation. -/
def NoneAtZero (lm : LineManager) (op : Op) : Prop := ZeroFree (lm.fields op.line) op

instance (lm : LineManager) (op : Op) : Decidable (Bounded lm op) := inferInstanceAs (Decidable (_ ∧ _))

instance (fields : List Field) : (op : Op) → Decidable (ZeroFree fields op)
  | .eventFilter _ _ _ | .addTitle _ _ _ | .addName _ _ _ => instDecidableTrue
  | .removeCharacter _ _ => inferInstanceAs (Decidable (∀ i ∈ fields.findIdx? _, _))

instance (lm : LineManager) (op : Op) : Decidable (NoneAtZero lm op) := inferInstanceAs (Decidable (ZeroFree _ _))

/-- A field that is typed into grows, and the later ones move on. -/
theorem placed_typed {fields : List Field} {col : UInt32} {i : Nat} {f : Field} (hidx : Indexed fields)
    (h : Placed (2 ^ 31) fields) (htext : textLength fields < 2 ^ 31) (hf : fields[i]? = some f)
    (hle : (col - f.mStart).toNat ≤ f.mInfo.length) (c : UInt8) :
    Placed (2 ^ 31) (Line.shiftFrom (f.mPosition + 1) Field.shiftRight (fields.set i (f.withChar c col))) ∧
      ∀ (j : Nat) a b, fields[j]? = some a →
        (Line.shiftFrom (f.mPosition + 1) Field.shiftRight (fields.set i (f.withChar c col)))[j]? = some b → Moved a b := by
  have hroom : ∀ g ∈ fields, g.mEnd.toNat + 1 < 2 ^ 32 := by
    intro g hg
    have hend := h.end_lt hg
    omega
  have hmem : f ∈ fields := List.mem_of_getElem? hf
  obtain ⟨hupright, hend⟩ := (h.upright hmem).withChar hle (hroom f hmem) c
  rw [hidx i f hf]
  refine ⟨?_, moved_edit hf ?_ fun o ho => ?_⟩
  · obtain ⟨before, after, rfl, rfl⟩ := exists_middle_of_getElem? hf
    obtain ⟨hbefore, -, hstart, hafter⟩ := Placed.append_iff.mp h
    rw [textLength_append, textLength_cons] at htext
    rw [Line.edit_middle]
    refine Placed.append_iff.mpr ⟨hbefore, hupright, hstart, ?_⟩
    rw [Field.length_withChar hle, ← Nat.add_assoc]
    exact hafter.shiftRight (by omega)
  · have hsame : (f.withChar c col).mStart = f.mStart := rfl
    rw [Moved, hsame]
    omega
  · have ho := List.mem_of_mem_drop ho
    exact moved_shiftRight (h.upright ho) (hroom o ho)

/-- A field that is erased in shrinks, and the later ones move back. -/
theorem placed_removed {fields : List Field} {col : UInt32} {i : Nat} {f : Field} (hidx : Indexed fields)
    (h : Placed (2 ^ 31) fields) (hfirst : FirstAt fields col i f) (hne : col ≠ f.mStart)
    (hzero : ∀ g ∈ fields.drop (i + 1), g.mStart ≠ 0) :
    Placed (2 ^ 31) (Line.shiftFrom (f.mPosition + 1) Field.shiftLeft (fields.set i (f.withoutChar (col - 1)))) ∧
      ∀ (j : Nat) a b, fields[j]? = some a →
        (Line.shiftFrom (f.mPosition + 1) Field.shiftLeft (fields.set i (f.withoutChar (col - 1))))[j]? = some b →
          Moved a b := by
  have hf := hfirst.get
  have hfield := h.upright hfirst.mem
  obtain ⟨hupright, hend⟩ := hfield.withoutChar hfirst.inRange hne
  have hlength := Field.length_withoutChar (hfield.offset_lt hfirst.inRange hne)
  rw [hidx i f hf]
  refine ⟨?_, moved_edit hf ?_ fun o ho => moved_shiftLeft (h.upright (List.mem_of_mem_drop ho)) (hzero o ho)⟩
  · obtain ⟨before, after, rfl, rfl⟩ := exists_middle_of_getElem? hf
    obtain ⟨hbefore, -, hstart, hafter⟩ := Placed.append_iff.mp h
    have hdrop : (before ++ f :: after).drop (before.length + 1) = after := by
      rw [List.append_cons]
      exact List.drop_left' (by simp)
    rw [Line.edit_middle]
    refine Placed.append_iff.mpr ⟨hbefore, hupright, hstart, ?_⟩
    rw [← hlength, ← Nat.add_assoc] at hafter
    exact hafter.shiftLeft (hdrop ▸ hzero)
  · have hsame : (f.withoutChar (col - 1)).mStart = f.mStart := rfl
    rw [Moved, hsame]
    omega

/-- A field that is made at a column below `2 ^ 31`. -/
theorem placed_concat {fields : List Field} {f : Field} (h : Placed (2 ^ 31) fields) (hupright : f.Upright)
    (hcol : f.mStart.toNat < 2 ^ 31) : Placed (2 ^ 31) (fields ++ [f]) :=
  Placed.append_iff.mpr ⟨h, hupright, by omega, trivial⟩

theorem moved_concat {fields : List Field} {f : Field} (j : Nat) (a b : Field) (ha : fields[j]? = some a)
    (hb : (fields ++ [f])[j]? = some b) : Moved a b := by
  rw [List.getElem?_append_left (List.getElem?_eq_some_iff.mp ha).1] at hb
  rw [Option.some.inj (ha.symm.trans hb)]
  exact .refl b

theorem upright_newText (pos : Nat) {col : UInt32} (hcol : col.toNat < 2 ^ 31) (c : UInt8) :
    (Field.newText pos col c).Upright := by
  have hend : (Field.newText pos col c).mEnd.toNat = col.toNat + 1 := toNat_add_one_of_lt (by omega)
  have hstart : (Field.newText pos col c).mStart = col := rfl
  have hbytes : (Field.newText pos col c).mInfo.length = 1 := rfl
  rw [Field.Upright, hend, hstart, hbytes]
  omega

theorem upright_newString (type : FieldType) (pos : Nat) {col : UInt32} {str : Bytes} (hcol : col.toNat < 2 ^ 31)
    (hstr : str.length < 2 ^ 31) : (Field.newString type pos col str).Upright := by
  have hsize := utf8StringSize_le str
  have hend : (Field.newString type pos col str).mEnd.toNat = col.toNat + utf8StringSize str := by
    show (col + UInt32.ofNat (utf8StringSize str)).toNat = _
    rw [UInt32.toNat_add, UInt32.toNat_ofNat']
    omega
  have hstart : (Field.newString type pos col str).mStart = col := rfl
  have hbytes : (Field.newString type pos col str).mInfo.length = str.length := rfl
  rw [Field.Upright, hend, hstart, hbytes]
  omega

theorem length_le_textLength {fields : List Field} {f : Field} (hf : f ∈ fields) : f.mInfo.length ≤ textLength fields :=
  List.single_le_sum (fun _ _ => Nat.zero_le _) _ (List.mem_map_of_mem hf)

theorem placed_fieldsStep {op : Op} {fields after : List Field} (hidx : Indexed fields) (h : Placed (2 ^ 31) fields)
    (htext : textLength fields < 2 ^ 31) (hcol : op.col.toNat < 2 ^ 31) (htext' : textLength after < 2 ^ 31)
    (hzero : ZeroFree fields op) (hstep : FieldsStep op fields after) :
    Placed (2 ^ 31) after ∧ ∀ (j : Nat) a b, fields[j]? = some a → after[j]? = some b → Moved a b := by
  cases hstep with
  | typed hfirst _ hle => exact placed_typed hidx h htext hfirst.get hle _
  | created _ => exact ⟨placed_concat h (upright_newText _ hcol _) hcol, moved_concat⟩
  | @added _ _ type str col hop _ =>
    have hcol' : col.toNat < 2 ^ 31 := by
      cases op with
      | addTitle _ _ _ => cases hop; exact hcol
      | addName _ _ _ => cases hop; exact hcol
      | eventFilter _ _ _ => cases hop
      | removeCharacter _ _ => cases hop
    have hstr : (cString str).length < 2 ^ 31 := by
      rw [textLength_append, textLength_cons] at htext'
      exact (Nat.le_add_right _ _).trans_lt ((Nat.le_add_left _ _).trans_lt htext')
    exact ⟨placed_concat h (upright_newString _ _ hcol' hstr) hcol', moved_concat⟩
  | @removed _ col _ i f hfirst hle =>
    have hne : col ≠ f.mStart :=
      Field.ne_start_of_le hle (by have := length_le_textLength hfirst.mem; omega)
    refine placed_removed hidx h hfirst hne (hzero i hfirst.findIdx? fun f' hf' => ?_)
    rw [Option.some.inj (hf'.symm.trans hfirst.get)]
    exact hne.symm

section ShiftedLeft

variable {lm : LineManager} {col line : UInt32} {i : Nat} {f g : Field}

theorem shiftedLeft_of_le (hfirst : FirstAt (lm.fields line) col i f)
    (hle : (col - 1 - f.mStart).toNat ≤ f.mInfo.length) :
    lm.shiftedLeft (.removeCharacter col line) = (lm.fields line).drop (f.mPosition + 1) := by
  obtain ⟨ptr, hget, hfirst⟩ := exists_line hfirst
  rw [fields_of_get? hget]
  obtain ⟨hlt, rfl⟩ := List.getElem?_eq_some_iff.mp hfirst.get
  simp only [shiftedLeft, lineAt, hget, Line.searchAtCol_of_firstAt hfirst, List.get_eq_getElem, Field.removeAt_of_le hle]
  rfl

theorem shiftedLeft_of_lt (hfirst : FirstAt (lm.fields line) col i f)
    (hlt : f.mInfo.length < (col - 1 - f.mStart).toNat) : lm.shiftedLeft (.removeCharacter col line) = [] := by
  obtain ⟨ptr, hget, hfirst⟩ := exists_line hfirst
  obtain ⟨hi, rfl⟩ := List.getElem?_eq_some_iff.mp hfirst.get
  simp only [shiftedLeft, lineAt, hget, Line.searchAtCol_of_firstAt hfirst, List.get_eq_getElem, Field.removeAt_of_lt hlt]

theorem shiftedLeft_of_outside (hnone : ∀ g ∈ lm.fields line, g.atRange col = false) :
    lm.shiftedLeft (.removeCharacter col line) = [] := by
  cases hget : lm.get? line with
  | none => simp [shiftedLeft, lineAt, hget]
  | some ptr =>
    rw [fields_of_get? hget] at hnone
    simp [shiftedLeft, lineAt, hget, Line.searchAtCol_eq_none.mpr hnone]

/-- Only a removal that erases shifts fields left. -/
theorem shiftedLeft_of_mem {op : Op} (hg : g ∈ lm.shiftedLeft op) :
    ∃ col line i f, op = .removeCharacter col line ∧ FirstAt (lm.fields line) col i f ∧
      (col - 1 - f.mStart).toNat ≤ f.mInfo.length ∧ g ∈ (lm.fields line).drop (f.mPosition + 1) := by
  cases op with
  | eventFilter _ _ _ => cases hg
  | addTitle _ _ _ => cases hg
  | addName _ _ _ => cases hg
  | removeCharacter col line =>
    by_cases hnone : ∀ g ∈ lm.fields line, g.atRange col = false
    · rw [shiftedLeft_of_outside hnone] at hg
      cases hg
    · obtain ⟨i, f, hfirst⟩ := exists_firstAt hnone
      by_cases hle : (col - 1 - f.mStart).toNat ≤ f.mInfo.length
      · rw [shiftedLeft_of_le hfirst hle] at hg
        exact ⟨col, line, i, f, rfl, hfirst, hle, hg⟩
      · rw [shiftedLeft_of_lt hfirst (not_le.mp hle)] at hg
        cases hg

end ShiftedLeft

/-- What a run within the bounds keeps. -/
def Settled (lm : LineManager) : Prop :=
  ∀ line, Indexed (lm.fields line) ∧ Placed (2 ^ 31) (lm.fields line) ∧ textLength (lm.fields line) < 2 ^ 31

/-- A step that meets the condition does not wrap. -/
theorem Settled.step {lm : LineManager} {op : Op} (h : Settled lm) (hbounded : Bounded lm op) (hzero : NoneAtZero lm op) :
    Settled (lm.step op) ∧ NoWrap lm op := by
  obtain ⟨hcol, htext⟩ := hbounded
  have hline : ∀ line, (Indexed ((lm.step op).fields line) ∧ Placed (2 ^ 31) ((lm.step op).fields line) ∧
      textLength ((lm.step op).fields line) < 2 ^ 31) ∧
      ∀ (j : Nat) f g, (lm.fields line)[j]? = some f → ((lm.step op).fields line)[j]? = some g → Moved f g := by
    intro line
    have hsame : ∀ (j : Nat) f g, (lm.fields line)[j]? = some f → (lm.fields line)[j]? = some g → Moved f g := by
      intro j f g hf hg
      rw [Option.some.inj (hf.symm.trans hg)]
      exact .refl g
    rcases lm.step_cases op with heq | ⟨ptr, heq, hfields⟩
    · rw [heq]
      exact ⟨h line, hsame⟩
    · by_cases hop : op.line = line
      · subst hop
        obtain ⟨hidx, hplaced, hbytes⟩ := h op.line
        rw [heq, fields_write_self] at htext ⊢
        obtain ⟨hplaced', hmoved⟩ := placed_fieldsStep hidx hplaced hbytes hcol htext hzero hfields
        exact ⟨⟨indexed_fieldsStep hidx hfields, hplaced', htext⟩, hmoved⟩
      · rw [heq, fields_write_of_ne hop]
        exact ⟨h line, hsame⟩
  refine ⟨fun line => (hline line).1, ⟨fun line f hf => ?_, fun line => (hline line).2, fun g hg => ?_⟩⟩
  · have hupright := (hline line).1.2.1.upright hf
    refine ⟨hupright.1, Field.atRange_eq_true.mpr ⟨UInt32.le_refl _, ?_⟩⟩
    exact UInt32.le_iff_toNat_le.mpr hupright.1
  · obtain ⟨col, line, i, f, rfl, hfirst, hle, hg⟩ := shiftedLeft_of_mem hg
    obtain ⟨hidx, -, hbytes⟩ := h line
    have hne : col ≠ f.mStart :=
      Field.ne_start_of_le hle (by have := length_le_textLength hfirst.mem; omega)
    rw [hidx i f hfirst.get] at hg
    refine hzero i hfirst.findIdx? (fun f' hf' => ?_) g hg
    rw [Option.some.inj (hf'.symm.trans hfirst.get)]
    exact hne.symm

/-- A field in column 0 that is found behind is shifted left. -/
theorem Settled.noneAtZero {lm : LineManager} {op : Op} (h : Settled lm) (hwrap : NoWrap lm op) : NoneAtZero lm op := by
  cases op with
  | eventFilter _ _ _ => trivial
  | addTitle _ _ _ => trivial
  | addName _ _ _ => trivial
  | removeCharacter col line =>
    intro i hi hne g hg
    obtain ⟨hidx, hplaced, -⟩ := h line
    obtain ⟨hlt, hin, hout⟩ := List.findIdx?_eq_some_iff_getElem.mp hi
    have hget := List.getElem?_eq_getElem hlt
    have hsome : ¬∀ g ∈ lm.fields line, g.atRange col = false :=
      fun hnone => Bool.eq_false_iff.mp (hnone _ (List.mem_of_getElem? hget)) hin
    obtain ⟨k, f, hfirst⟩ := exists_firstAt hsome
    obtain rfl : k = i := Option.some.inj (hfirst.findIdx?.symm.trans hi)
    have hlast := (hplaced.upright hfirst.mem).offset_lt hfirst.inRange (hne f hfirst.get).symm
    refine hwrap.shifted g ?_
    rwa [shiftedLeft_of_le hfirst hlast.le, hidx k f hfirst.get]

/-- Within the bounds a run has no column that wraps exactly when no removal finds a later field of its line
in column 0. -/
theorem noWrap_iff {ops : List Op} (hbounded : StepsMeet step Bounded empty ops) :
    StepsMeet step NoWrap empty ops ↔ StepsMeet step NoneAtZero empty ops := by
  refine stepsMeet_iff_within Settled (fun lm op h hdom => ?_) (fun lm op h hdom hzero => (h.step hdom hzero).1)
    (fun line => ?_) hbounded
  · exact ⟨h.noneAtZero, fun hzero => (h.step hdom hzero).2⟩
  · rw [fields_empty]
    exact ⟨by simp [Indexed], trivial, by decide⟩

/-- A text right of a title, and a removal in it. -/
theorem noWrap_iff_title :
    StepsMeet step NoWrap empty [.addTitle [66, 97] 0 0, .eventFilter 4 0 120, .removeCharacter 5 0] ↔
      StepsMeet step NoneAtZero empty [.addTitle [66, 97] 0 0, .eventFilter 4 0 120, .removeCharacter 5 0] :=
  noWrap_iff (by decide +kernel)

/-- Typing at column 10 and then at column 0, and a removal in the first field. -/
theorem columns_wrap :
    ¬∀ ops : List Op, StepsMeet step Bounded empty ops → StepsMeet step NoWrap empty ops := by
  intro h
  have hwrap := h [.eventFilter 10 0 97, .eventFilter 0 0 98, .removeCharacter 11 0] (by decide +kernel)
  exact absurd hwrap.2.2.1.shifted (by decide +kernel)

end LineManager

end MetaEditor
