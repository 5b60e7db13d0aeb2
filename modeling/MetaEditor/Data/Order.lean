import MetaEditor.Data.Indexed
import MetaEditor.Lib.Intervals
import MetaEditor.Lib.Middle

/-!
# Fields from left to right

The loops that move "the fields to the right" move the fields created later. The two agree when a line
is `LeftToRight`: the inclusive ranges are disjoint and the creation order is the column order. Nothing
in the operations makes it so. A new field goes to the end of the vector whatever its column, and its
column alone is compared with the ranges that exist, not its whole text. `StaysInOrder` is the missing
guard: a field is only made to the right of all fields of its line, and the last column of a field
never passes `2 ^ 32 - 1` nor goes below its first. Under it every run stays in order.
-/

namespace MetaEditor

open Lib

/-- The column order that the shifting loops rely on. -/
structure LeftToRight (fields : List Field) : Prop where
  /-- `mEnd` of a field is below `mStart` of the next. -/
  increasing : ∀ (i : Nat) f g, fields[i]? = some f → fields[i + 1]? = some g → f.mEnd < g.mStart
  disjoint : ∀ f g, f ∈ fields → g ∈ fields → f ≠ g → f.mEnd < g.mStart ∨ g.mEnd < f.mStart
  /-- A column has at most one candidate. -/
  unique : ∀ (i j : Nat) f g col, fields[i]? = some f → fields[j]? = some g →
    f.atRange col = true → g.atRange col = true → i = j
  /-- The fields above a position are those to the right. -/
  right : ∀ (i j : Nat) f g, fields[i]? = some f → fields[j]? = some g →
    (f.mPosition < j ↔ f.mEnd < g.mStart)

/-- The first and the last column of a field as intervals of numbers. -/
abbrev Ordered (fields : List Field) : Prop :=
  Ascending (fun f : Field => f.mStart.toNat) (fun f => f.mEnd.toNat) fields

theorem leftToRight_of_ordered {fields : List Field} (hidx : Indexed fields) (h : Ordered fields) :
    LeftToRight fields := by
  refine ⟨fun i f g hf hg => ?_, fun f g hf hg hne => ?_, fun i j f g col hf hg hcf hcg => ?_,
    fun i j f g hf hg => ?_⟩
  · rw [UInt32.lt_iff_toNat_lt]
    exact h.apart_of_lt (Nat.lt_succ_self i) hf hg
  · obtain ⟨i, hi⟩ := List.mem_iff_getElem?.mp hf
    obtain ⟨j, hj⟩ := List.mem_iff_getElem?.mp hg
    rcases Nat.lt_trichotomy i j with hlt | rfl | hlt
    · exact .inl (UInt32.lt_iff_toNat_lt.mpr (h.apart_of_lt hlt hi hj))
    · exact absurd (Option.some.inj (hi.symm.trans hj)) hne
    · exact .inr (UInt32.lt_iff_toNat_lt.mpr (h.apart_of_lt hlt hj hi))
  · simp only [Field.atRange_eq_true, UInt32.le_iff_toNat_le] at hcf hcg
    exact h.index_unique hf hg hcf hcg
  · rw [hidx i f hf, UInt32.lt_iff_toNat_lt]
    exact h.index_lt_iff hf hg

/-! ### The condition on a step -/

/-- Room for a new field of `size` columns at `col`: right of every field, below the last column. -/
def RightOfAll (fields : List Field) (col : UInt32) (size : Nat) : Prop :=
  (∀ f ∈ fields, f.mEnd < col) ∧ col.toNat + size < 2 ^ 32

/-- A column that some field contains. -/
def Occupied (fields : List Field) (col : UInt32) : Prop := ∃ f ∈ fields, f.atRange col = true

/-- What an operation must meet for the line to stay in order. -/
def StaysInOrder (lm : LineManager) : LineManager.Op → Prop
  | .eventFilter col line _ =>
    (∃ f ∈ lm.fields line, f.atRange col = true ∧ f.mType = .title) ∨
    (Occupied (lm.fields line) col ∧ ∀ f ∈ lm.fields line, f.mEnd.toNat + 1 < 2 ^ 32) ∨
    RightOfAll (lm.fields line) col 1
  | .addTitle str col line | .addName str col line =>
    Occupied (lm.fields line) col ∨ RightOfAll (lm.fields line) col (utf8StringSize (cString str))
  | .removeCharacter col line =>
    ∀ f ∈ lm.fields line, f.mStart = col → f.mEnd = col → f.mInfo.length + 1 < 2 ^ 32

instance (fields : List Field) (col : UInt32) (size : Nat) : Decidable (RightOfAll fields col size) :=
  inferInstanceAs (Decidable (_ ∧ _))

instance (fields : List Field) (col : UInt32) : Decidable (Occupied fields col) :=
  inferInstanceAs (Decidable (∃ f ∈ fields, _))

instance (lm : LineManager) (op : LineManager.Op) : Decidable (StaysInOrder lm op) := by
  cases op <;> (unfold StaysInOrder; infer_instance)

theorem not_occupied {fields : List Field} {col : UInt32} (h : ∀ g ∈ fields, g.atRange col = false) :
    ¬Occupied fields col := by
  rintro ⟨f, hf, hin⟩
  rw [h f hf] at hin
  cases hin

namespace LineManager

theorem ordered_concat {fields : List Field} {f : Field} {size : Nat} (h : Ordered fields)
    (hright : RightOfAll fields f.mStart size) (hend : f.mEnd = f.mStart + UInt32.ofNat size) :
    Ordered (fields ++ [f]) := by
  obtain ⟨hall, hfit⟩ := hright
  have hsize : (UInt32.ofNat size).toNat = size := by
    rw [UInt32.toNat_ofNat']
    omega
  have hend' : f.mEnd.toNat = f.mStart.toNat + size := by
    rw [hend, UInt32.toNat_add, hsize]
    omega
  refine h.concat (by omega) fun a ha => ?_
  exact UInt32.lt_iff_toNat_lt.mp (hall a ha)

/-- Typing keeps the order: the field grows by a column and the later ones move by one. -/
theorem ordered_typed {fields : List Field} {col : UInt32} {i : Nat} {f : Field} {c : UInt8}
    (hidx : Indexed fields) (h : Ordered fields) (hfirst : FirstAt fields col i f)
    (hroom : ∀ g ∈ fields, g.mEnd.toNat + 1 < 2 ^ 32) :
    Ordered (Line.shiftFrom (f.mPosition + 1) Field.shiftRight (fields.set i (f.withChar c col))) := by
  have hne := h.nonempty f hfirst.mem
  have hend : (f.withChar c col).mEnd.toNat = f.mEnd.toNat + 1 := toNat_add_one_of_lt (hroom f hfirst.mem)
  have hstart : (f.withChar c col).mStart.toNat = f.mStart.toNat := rfl
  rw [hidx i f hfirst.get]
  obtain ⟨before, after, rfl, rfl⟩ := exists_middle_of_getElem? hfirst.get
  obtain ⟨-, -, hroom⟩ := forall_mem_middle.mp hroom
  obtain ⟨-, -, hafter⟩ := forall_mem_middle.mp h.nonempty
  have hright := (List.pairwise_cons.mp (List.pairwise_append.mp h.apart).2.1).1
  have hshift : ∀ g ∈ after, g.shiftRight.mStart.toNat = g.mStart.toNat + 1 ∧
      g.shiftRight.mEnd.toNat = g.mEnd.toNat + 1 := fun g hg => Field.toNat_shiftRight (hafter g hg) (hroom g hg)
  rw [Line.edit_middle]
  refine h.edit rfl (by omega) (fun g hg => ?_) (fun g hg => ?_) fun a ha g hg hag => ?_
  · have hfg := hright g hg
    have hg' := hshift g hg
    omega
  · have hg' := hshift g hg
    have hne' := hafter g hg
    omega
  · have ha' := hshift a ha
    have hg' := hshift g hg
    omega

/-- Removing keeps the order: the field loses a column and the later ones move back by one. -/
theorem ordered_removed {fields : List Field} {col : UInt32} {i : Nat} {f : Field}
    (hidx : Indexed fields) (h : Ordered fields) (hfirst : FirstAt fields col i f)
    (hle : (col - 1 - f.mStart).toNat ≤ f.mInfo.length)
    (hempty : f.mStart = col → f.mEnd = col → f.mInfo.length + 1 < 2 ^ 32) :
    Ordered (Line.shiftFrom (f.mPosition + 1) Field.shiftLeft (fields.set i (f.withoutChar (col - 1)))) := by
  have hlt : f.mStart.toNat < f.mEnd.toNat := by
    obtain ⟨hlow, hhigh⟩ := Field.atRange_eq_true.mp hfirst.inRange
    rw [UInt32.le_iff_toNat_le] at hlow hhigh
    by_contra hge
    have hstart : f.mStart = col := UInt32.toNat_inj.mp (by omega)
    have hend : f.mEnd = col := UInt32.toNat_inj.mp (by omega)
    exact Field.ne_start_of_le hle (hempty hstart hend) hstart.symm
  have hend : (f.withoutChar (col - 1)).mEnd.toNat = f.mEnd.toNat - 1 := toNat_sub_one (by omega)
  have hstart : (f.withoutChar (col - 1)).mStart.toNat = f.mStart.toNat := rfl
  rw [hidx i f hfirst.get]
  obtain ⟨before, after, rfl, rfl⟩ := exists_middle_of_getElem? hfirst.get
  obtain ⟨-, -, hafter⟩ := forall_mem_middle.mp h.nonempty
  have hright := (List.pairwise_cons.mp (List.pairwise_append.mp h.apart).2.1).1
  -- a field right of another one does not begin in column 0
  have hshift : ∀ g ∈ after, f.mEnd.toNat < g.mStart.toNat ∧ g.shiftLeft.mStart.toNat = g.mStart.toNat - 1 ∧
      g.shiftLeft.mEnd.toNat = g.mEnd.toNat - 1 := fun g hg =>
    ⟨hright g hg, Field.toNat_shiftLeft (Nat.zero_lt_of_lt (hright g hg)) (hafter g hg)⟩
  rw [Line.edit_middle]
  refine h.edit rfl (by omega) (fun g hg => ?_) (fun g hg => ?_) fun a ha g hg hag => ?_
  · have hg' := hshift g hg
    omega
  · have hg' := hshift g hg
    have hne' := hafter g hg
    omega
  · have ha' := hshift a ha
    have hg' := hshift g hg
    have hne' := hafter a ha
    omega

/-- A step that meets the condition keeps the order of its line. -/
theorem ordered_fieldsStep {lm : LineManager} {op : Op} {after : List Field}
    (hidx : Indexed (lm.fields op.line)) (h : Ordered (lm.fields op.line)) (hcond : StaysInOrder lm op)
    (hstep : FieldsStep op (lm.fields op.line) after) : Ordered after := by
  generalize hfields : lm.fields op.line = fields at *
  cases hstep with
  | @typed _ col line c i f hfirst htype hle =>
    have hline : lm.fields line = fields := hfields
    simp only [StaysInOrder, hline] at hcond
    rcases hcond with ⟨g, hg, hin, htitle⟩ | ⟨_, hroom⟩ | ⟨hright, _⟩
    · -- the field found is no title, and no other field contains the column
      obtain ⟨j, hj⟩ := List.mem_iff_getElem?.mp hg
      have hij := (leftToRight_of_ordered hidx h).unique i j f g col hfirst.get hj hfirst.inRange hin
      subst hij
      obtain rfl : f = g := Option.some.inj (hfirst.get.symm.trans hj)
      exact absurd htitle htype
    · exact ordered_typed hidx h hfirst hroom
    · have hlt := hright f hfirst.mem
      have hin := (Field.atRange_eq_true.mp hfirst.inRange).2
      exact absurd hin (by simpa using hlt)
  | @created _ col line c hnone =>
    have hline : lm.fields line = fields := hfields
    simp only [StaysInOrder, hline] at hcond
    rcases hcond with ⟨g, hg, hin, _⟩ | ⟨hocc, _⟩ | hright
    · exact absurd ⟨g, hg, hin⟩ (not_occupied hnone)
    · exact absurd hocc (not_occupied hnone)
    · exact ordered_concat h hright rfl
  | @added _ _ type str col hop hnone =>
    cases op with
    | addTitle str' col' line =>
      have hline : lm.fields line = fields := hfields
      obtain ⟨rfl, rfl, rfl⟩ : FieldType.title = type ∧ str' = str ∧ col' = col := by
        simpa [Op.adds] using hop
      simp only [StaysInOrder, hline] at hcond
      exact ordered_concat h (hcond.resolve_left (not_occupied hnone)) rfl
    | addName str' col' line =>
      have hline : lm.fields line = fields := hfields
      obtain ⟨rfl, rfl, rfl⟩ : FieldType.name = type ∧ str' = str ∧ col' = col := by
        simpa [Op.adds] using hop
      simp only [StaysInOrder, hline] at hcond
      exact ordered_concat h (hcond.resolve_left (not_occupied hnone)) rfl
    | eventFilter col' line c => cases hop
    | removeCharacter col' line => cases hop
  | @removed _ col line i f hfirst hle =>
    have hline : lm.fields line = fields := hfields
    simp only [StaysInOrder, hline] at hcond
    exact ordered_removed hidx h hfirst hle (hcond f hfirst.mem)

/-- In every run whose steps all meet the condition, every line of every state reached is in order. -/
theorem run_leftToRight (ops : List Op) (hops : StepsMeet step StaysInOrder empty ops) (line : UInt32) :
    LeftToRight ((run step empty ops).fields line) := by
  have hinv : ∀ line, Indexed ((run step empty ops).fields line) ∧ Ordered ((run step empty ops).fields line) := by
    refine run_inv_of_stepsMeet (fun lm : LineManager => ∀ line, Indexed (lm.fields line) ∧ Ordered (lm.fields line))
      (fun lm op hinv hcond => ?_) (fun line => ?_) hops
    · refine fields_step_inv (fun fields => Indexed fields ∧ Ordered fields) (fun after hbefore hstep => ?_) hinv
      exact ⟨indexed_fieldsStep hbefore.1 hstep, ordered_fieldsStep hbefore.1 hbefore.2 hcond hstep⟩
    · rw [fields_empty]
      exact ⟨by simp [Indexed], .nil⟩
  exact leftToRight_of_ordered (hinv line).1 (hinv line).2

theorem run_leftToRight_title_name :
    StepsMeet step StaysInOrder empty
        [.addTitle [66, 97, 115, 101] 0 7, .eventFilter 5 7 120, .addName [97] 8 7, .eventFilter 6 7 121] ∧
      LeftToRight ((run step empty
        [.addTitle [66, 97, 115, 101] 0 7, .eventFilter 5 7 120, .addName [97] 8 7, .eventFilter 6 7 121]).fields 7) :=
  ⟨by decide +kernel, run_leftToRight _ (by decide +kernel) 7⟩

/-- Typing at column 10 and then at column 0 makes two fields, the second one left of the first. -/
theorem run_not_leftToRight :
    ¬∀ (ops : List Op) (line : UInt32), LeftToRight ((run step empty ops).fields line) := by
  intro h
  have hrun : (run step empty [.eventFilter 10 0 97, .eventFilter 0 0 98]).fields 0 =
      [.newText 0 10 97, .newText 1 0 98] := by decide +kernel
  have hord := (h [.eventFilter 10 0 97, .eventFilter 0 0 98] 0).increasing 0 (.newText 0 10 97) (.newText 1 0 98)
  rw [hrun] at hord
  exact absurd (hord rfl rfl) (by decide)

end LineManager

end MetaEditor
