import MetaEditor.Data.Indexed
import MetaEditor.Editor.Agreement

/-!
# The structure follows the document

A key that edits inside a line moves the text behind the cursor by one column. The structure moves the
fields created after the one it edits, and none at all when it edits none. `agrees_iff` is the exact
condition for the two to agree again: a field on the wrong side of that rule must be spelled one column
beside its place as well, and a field that is pushed must not run into one that stays. The cursor is in the
first visual line of its line (`Cursor.view`).
-/

namespace MetaEditor

open Lib

/-! ### Ranges after an edit -/

/-- When the columns of the fields `after` are `lo` and `hi` of the fields before. -/
theorem apart_iff_of_bounds {fields after : List Field} (lo hi : Nat → Field → UInt32)
    (h : ∀ j : Nat, (after[j]?).map (fun g => (g.mStart, g.mEnd)) = (fields[j]?).map fun o => (lo j o, hi j o)) :
    Apart after ↔ ∀ (j k : Nat) o o', j ≠ k → fields[j]? = some o → fields[k]? = some o' →
      (hi j o).toNat < (lo k o').toNat ∨ (hi k o').toNat < (lo j o).toNat := by
  simp only [← UInt32.lt_iff_toNat_lt]
  constructor
  · intro hapart j k o o' hjk hj hk
    have hj' := h j
    have hk' := h k
    rw [hj, Option.map_some, Option.map_eq_some_iff] at hj'
    rw [hk, Option.map_some, Option.map_eq_some_iff] at hk'
    obtain ⟨g, hg, hgb⟩ := hj'
    obtain ⟨g', hg', hgb'⟩ := hk'
    rw [Prod.mk.injEq] at hgb hgb'
    rw [← hgb.1, ← hgb.2, ← hgb'.1, ← hgb'.2]
    exact hapart.of_ne hjk hg hg'
  · intro hpairs
    refine List.pairwise_iff_getElem.mpr fun j k hj hk hjk => ?_
    have hj' := h j
    have hk' := h k
    rw [List.getElem?_eq_getElem hj, Option.map_some, eq_comm, Option.map_eq_some_iff] at hj'
    rw [List.getElem?_eq_getElem hk, Option.map_some, eq_comm, Option.map_eq_some_iff] at hk'
    obtain ⟨o, ho, hob⟩ := hj'
    obtain ⟨o', ho', hob'⟩ := hk'
    rw [Prod.mk.injEq] at hob hob'
    rw [← hob.1, ← hob.2, ← hob'.1, ← hob'.2]
    exact hpairs j k o o' hjk.ne ho ho'

/-- A field that ends right before another begins would run into it when pushed. -/
def NoPush (fields : List Field) (pushes : Nat → Nat → Prop) : Prop :=
  ∀ (a b : Nat) f g, pushes a b → fields[a]? = some f → fields[b]? = some g → f.mEnd + 1 ≠ g.mStart

/-- What agreement says of the columns alone. -/
theorem Agrees.bounds {fields : List Field} {row : List QChar} (h : Agrees fields row) (hrow : row.length < 2 ^ 31)
    {j : Nat} {o : Field} (ho : fields[j]? = some o) :
    o.mStart.toNat ≤ o.mEnd.toNat ∧ (o.mEnd.toNat < 2 ^ 31 ∨ o.mEnd.toNat = o.mStart.toNat) := by
  have hspelled := h.spelled o (List.mem_of_getElem? ho)
  have hsize := hspelled.size
  refine ⟨by omega, ?_⟩
  rcases hspelled.end_le_or with hend | ⟨-, heq⟩
  · exact .inl (by omega)
  · exact .inr heq

theorem add_one_ne_iff {c c' : UInt32} : c + 1 ≠ c' ↔ (c.toNat + 1) % 2 ^ 32 ≠ c'.toNat := by
  rw [Ne, ← UInt32.toNat_inj, toNat_add_one]

/-- The columns of a line after an edit at index `i`. -/
theorem bounds_edit {fields : List Field} {shift : Field → Field} {i : Nat} {f f' : Field} (hf : fields[i]? = some f)
    (hstart : f'.mStart = f.mStart) (j : Nat) :
    ((Line.shiftFrom (i + 1) shift (fields.set i f'))[j]?).map (fun g => (g.mStart, g.mEnd)) =
      (fields[j]?).map fun o =>
        (if i < j then (shift o).mStart else o.mStart, if i < j then (shift o).mEnd else if i = j then f'.mEnd else o.mEnd) := by
  have hi := (List.getElem?_eq_some_iff.mp hf).1
  rw [Line.getElem?_shiftFrom]
  rcases Nat.lt_trichotomy i j with hlt | rfl | hlt
  · rw [List.getElem?_set_ne hlt.ne, Option.map_map]
    simp [Function.comp_def, hlt, Nat.succ_le_of_lt hlt]
  · rw [List.getElem?_set_self hi, hf]
    simp [hstart]
  · rw [List.getElem?_set_ne hlt.ne', Option.map_map]
    simp [Function.comp_def, hlt.not_gt, hlt.ne', show ¬i + 1 ≤ j by omega]

theorem apart_typed {fields : List Field} {row : List QChar} {i : Nat} {f : Field} (hrow : row.length < 2 ^ 31)
    (h : Agrees fields row) (hf : fields[i]? = some f) (hend : f.mEnd.toNat < 2 ^ 31) (c : UInt8) (col : UInt32) :
    Apart (Line.shiftFrom (i + 1) Field.shiftRight (fields.set i (f.withChar c col))) ↔
      NoPush fields fun a b => b ≤ i ∧ i ≤ a ∧ a ≠ b := by
  have hmEnd : (f.withChar c col).mEnd = f.mEnd + 1 := rfl
  have hat : ∀ (j : Nat) o, fields[j]? = some o → i = j → o.mEnd.toNat = f.mEnd.toNat := by
    rintro j o ho rfl
    rw [Option.some.inj (ho.symm.trans hf)]
  rw [apart_iff_of_bounds _ _ (bounds_edit hf (show (f.withChar c col).mStart = f.mStart from rfl))]
  simp only [NoPush, add_one_ne_iff, Field.shiftRight_mStart, Field.shiftRight_mEnd, hmEnd,
    apply_ite UInt32.toNat, toNat_add_one]
  constructor
  · intro hpairs a b g g' hab hg hg'
    have hpair := hpairs a b g g' hab.2.2 hg hg'
    have hold := h.apart.of_ne hab.2.2 hg hg'
    have hb := h.bounds hrow hg
    have hb' := h.bounds hrow hg'
    have hga := hat a g hg
    have hgb := hat b g' hg'
    simp only [UInt32.lt_iff_toNat_lt] at hold
    split_ifs at hpair <;> omega
  · intro hpush j k o o' hjk ho ho'
    have hold := h.apart.of_ne hjk ho ho'
    have hb := h.bounds hrow ho
    have hb' := h.bounds hrow ho'
    have hga := hat j o ho
    have hgb := hat k o' ho'
    have hmax := o.mEnd.toNat_lt
    have hmax' := o'.mEnd.toNat_lt
    have hjk' : k ≤ i → i ≤ j → _ := fun h1 h2 => hpush j k o o' ⟨h1, h2, hjk⟩ ho ho'
    have hkj' : j ≤ i → i ≤ k → _ := fun h1 h2 => hpush k j o' o ⟨h1, h2, hjk.symm⟩ ho' ho
    simp only [UInt32.lt_iff_toNat_lt] at hold
    split_ifs <;> omega

theorem apart_erased {fields : List Field} {row : List QChar} {i : Nat} {f : Field} (hrow : row.length < 2 ^ 31)
    (h : Agrees fields row) (hf : fields[i]? = some f) (hlt : f.mStart.toNat < f.mEnd.toNat)
    (hzero : ∀ (j : Nat) o, i < j → fields[j]? = some o → o.mStart.toNat = 0 → o.mEnd.toNat = 0) (col : UInt32) :
    Apart (Line.shiftFrom (i + 1) Field.shiftLeft (fields.set i (f.withoutChar col))) ↔
      NoPush fields fun a b => a < i ∧ i < b := by
  have hmEnd : (f.withoutChar col).mEnd = f.mEnd - 1 := rfl
  have hat : ∀ (j : Nat) o, fields[j]? = some o → i = j →
      o.mStart.toNat = f.mStart.toNat ∧ o.mEnd.toNat = f.mEnd.toNat := by
    rintro j o ho rfl
    rw [Option.some.inj (ho.symm.trans hf)]
    exact ⟨rfl, rfl⟩
  rw [apart_iff_of_bounds _ _ (bounds_edit hf (show (f.withoutChar col).mStart = f.mStart from rfl))]
  simp only [NoPush, add_one_ne_iff, Field.shiftLeft_mStart, Field.shiftLeft_mEnd, hmEnd,
    apply_ite UInt32.toNat, toNat_sub_one_mod]
  constructor
  · intro hpairs a b g g' hab hg hg'
    have hne : a ≠ b := (hab.1.trans hab.2).ne
    have hpair := hpairs a b g g' hne hg hg'
    have hold := h.apart.of_ne hne hg hg'
    have hb := h.bounds hrow hg
    have hb' := h.bounds hrow hg'
    have hmax := g.mEnd.toNat_lt
    have hzero' := hzero b g' hab.2 hg'
    simp only [UInt32.lt_iff_toNat_lt] at hold
    split_ifs at hpair <;> omega
  · intro hpush j k o o' hjk ho ho'
    have hold := h.apart.of_ne hjk ho ho'
    have hb := h.bounds hrow ho
    have hb' := h.bounds hrow ho'
    have hga := hat j o ho
    have hgb := hat k o' ho'
    have hmax := o.mEnd.toNat_lt
    have hmax' := o'.mEnd.toNat_lt
    have hjk' : j < i → i < k → _ := fun h1 h2 => hpush j k o o' ⟨h1, h2⟩ ho ho'
    have hkj' : k < i → i < j → _ := fun h1 h2 => hpush k j o' o ⟨h1, h2⟩ ho' ho
    simp only [UInt32.lt_iff_toNat_lt] at hold
    split_ifs <;> omega

/-! ### Typing -/

/-- What the line must be like for the structure to follow a character typed at column `p`. -/
structure TypedFollows (fields : List Field) (row : List QChar) (p : Nat) : Prop where
  /-- A field contains the column: those created after it move, and only they. -/
  inField : ∀ i f, FirstAt fields (UInt32.ofNat p) i f →
    (∀ (j : Nat) o, j < i → fields[j]? = some o → p < o.mStart.toNat →
      SpelledAt o.shown row (o.mStart.toNat - 1)) ∧
    (∀ (j : Nat) o, i < j → fields[j]? = some o → o.mEnd.toNat < p →
      SpelledAt o.shown row (o.mStart.toNat + 1)) ∧
    NoPush fields fun a b => b ≤ i ∧ i ≤ a ∧ a ≠ b
  /-- No field contains the column: nothing moves, and the new field takes two columns. -/
  inGap : (∀ g ∈ fields, g.atRange (UInt32.ofNat p) = false) → ∀ o ∈ fields, p < o.mStart.toNat →
    SpelledAt o.shown row (o.mStart.toNat - 1) ∧ o.mStart.toNat ≠ p + 1

theorem forall_mem_edit {P : Field → Prop} {fields : List Field} {shift : Field → Field} {i : Nat} {f' : Field}
    (hi : i < fields.length) :
    (∀ g ∈ Line.shiftFrom (i + 1) shift (fields.set i f'), P g) ↔
      (∀ (j : Nat) o, j < i → fields[j]? = some o → P o) ∧ P f' ∧
        ∀ (j : Nat) o, i < j → fields[j]? = some o → P (shift o) := by
  simp only [List.mem_iff_getElem?, Line.getElem?_edit hi]
  constructor
  · intro h
    refine ⟨fun j o hj ho => h o ⟨j, .inl ⟨hj, ho⟩⟩, h f' ⟨i, .inr (.inl ⟨rfl, rfl⟩)⟩, fun j o hj ho => ?_⟩
    exact h (shift o) ⟨j, .inr (.inr ⟨hj, o, ho, rfl⟩)⟩
  · rintro ⟨hbefore, hat, hbehind⟩ g ⟨j, ⟨hj, hg⟩ | ⟨-, rfl⟩ | ⟨hj, o, ho, rfl⟩⟩
    · exact hbefore j g hj hg
    · exact hat
    · exact hbehind j o hj ho

section

variable {fields : List Field} {row : List QChar} {p : Nat} {i : Nat} {f : Field}

theorem toNat_ofNat_of_le (hrow : row.length < 2 ^ 31) (hp : p ≤ row.length) : (UInt32.ofNat p).toNat = p := by
  rw [UInt32.toNat_ofNat']
  omega

theorem firstAt_bounds (hrow : row.length < 2 ^ 31) (hp : p ≤ row.length) (hfirst : FirstAt fields (UInt32.ofNat p) i f) :
    f.mStart.toNat ≤ p ∧ p ≤ f.mEnd.toNat := by
  have hin := hfirst.inRange
  rwa [Field.atRange_eq_true, UInt32.le_iff_toNat_le, UInt32.le_iff_toNat_le, toNat_ofNat_of_le hrow hp] at hin

theorem outside_bounds {o : Field} (hrow : row.length < 2 ^ 31) (hp : p ≤ row.length)
    (hout : o.atRange (UInt32.ofNat p) = false) : p < o.mStart.toNat ∨ o.mEnd.toNat < p := by
  rw [Field.atRange_eq_false, UInt32.le_iff_toNat_le, UInt32.le_iff_toNat_le, toNat_ofNat_of_le hrow hp] at hout
  omega

/-- The other fields are beside the column. -/
theorem outside_of_ne {j : Nat} {o : Field} (hrow : row.length < 2 ^ 31) (hp : p ≤ row.length) (h : Agrees fields row)
    (hfirst : FirstAt fields (UInt32.ofNat p) i f) (hne : j ≠ i) (ho : fields[j]? = some o) :
    p < o.mStart.toNat ∨ o.mEnd.toNat < p := by
  refine outside_bounds hrow hp ?_
  by_contra hin
  exact hne (h.apart.index_unique ho hfirst.get (by simpa using hin) hfirst.inRange)

theorem agrees_typed_iff {ch : QChar} (hrow : row.length < 2 ^ 31) (hp : p ≤ row.length) (h : Agrees fields row)
    (hfirst : FirstAt fields (UInt32.ofNat p) i f) (hch : ch < 128) :
    Agrees (Line.shiftFrom (i + 1) Field.shiftRight (fields.set i (f.withChar (QChar.toLatin1 ch) (UInt32.ofNat p))))
      (row.insertIdx p ch) ↔ TypedFollows fields row p := by
  obtain ⟨hle, hge⟩ := firstAt_bounds hrow hp hfirst
  have hf := h.spelled f hfirst.mem
  have hend : f.mEnd.toNat < 2 ^ 31 := by
    rcases hf.end_le_or with hend | ⟨-, heq⟩ <;> omega
  have hspelled : ∀ (j : Nat) o, fields[j]? = some o → Spelled o row :=
    fun j o ho => h.spelled o (List.mem_of_getElem? ho)
  have hparts : Agrees (Line.shiftFrom (i + 1) Field.shiftRight
      (fields.set i (f.withChar (QChar.toLatin1 ch) (UInt32.ofNat p)))) (row.insertIdx p ch) ↔ _ ∧ _ :=
    ⟨fun h' => ⟨h'.spelled, h'.apart⟩, fun h' => ⟨h'.1, h'.2⟩⟩
  rw [hparts, forall_mem_edit hfirst.lt, apart_typed hrow h hfirst.get hend]
  constructor
  · rintro ⟨⟨hbefore, -, hbehind⟩, hpush⟩
    refine ⟨fun j g hg => ?_, fun hnone => ?_⟩
    · obtain ⟨rfl, rfl⟩ := hg.unique hfirst
      refine ⟨fun k o hk ho hlt => ?_, fun k o hk ho hlt => ?_, hpush⟩
      · exact (spelled_insert_right (hspelled k o ho) hlt).mp (hbefore k o hk ho)
      · exact (spelled_insert_left_shiftRight (by omega) (hspelled k o ho) hlt).mp (hbehind k o hk ho)
    · exact absurd hnone hfirst.not_outside
  · intro hfollows
    obtain ⟨hright, hleft, hpush⟩ := hfollows.inField i f hfirst
    refine ⟨⟨fun k o hk ho => ?_, spelled_withChar hrow hp hch hf hle hge, fun k o hk ho => ?_⟩, hpush⟩
    · rcases outside_of_ne hrow hp h hfirst hk.ne ho with hlt | hlt
      · exact (spelled_insert_right (hspelled k o ho) hlt).mpr (hright k o hk ho hlt)
      · exact spelled_insert_left (hspelled k o ho) hlt
    · rcases outside_of_ne hrow hp h hfirst hk.ne' ho with hlt | hlt
      · exact spelled_insert_shiftRight hrow (hspelled k o ho) hlt
      · exact (spelled_insert_left_shiftRight (by omega) (hspelled k o ho) hlt).mpr (hleft k o hk ho hlt)

theorem agrees_created_iff {ch : QChar} {n : Nat} (hrow : row.length < 2 ^ 31) (hp : p ≤ row.length)
    (h : Agrees fields row) (hnone : ∀ g ∈ fields, g.atRange (UInt32.ofNat p) = false) (hch : ch < 128) :
    Agrees (fields ++ [.newText n (UInt32.ofNat p) (QChar.toLatin1 ch)]) (row.insertIdx p ch) ↔
      TypedFollows fields row p := by
  have hnat := toNat_ofNat_of_le hrow hp
  have hnew : (UInt32.ofNat p + 1).toNat = p + 1 := by
    rw [toNat_add_one, hnat]
    omega
  have hbeside : ∀ o ∈ fields, (o.mEnd < UInt32.ofNat p ∨ UInt32.ofNat p + 1 < o.mStart) ↔
      (p < o.mStart.toNat → o.mStart.toNat ≠ p + 1) := by
    intro o ho
    have hout := outside_bounds hrow hp (hnone o ho)
    have hsize := (h.spelled o ho).size
    rw [UInt32.lt_iff_toNat_lt, UInt32.lt_iff_toNat_lt, hnat, hnew]
    omega
  constructor
  · intro h'
    refine ⟨fun j g hg => ?_, fun _ o ho hlt => ⟨?_, ?_⟩⟩
    · exact absurd hnone hg.not_outside
    · exact (spelled_insert_right (h.spelled o ho) hlt).mp (h'.spelled o (List.mem_append_left _ ho))
    · have hpair := (List.pairwise_append.mp h'.apart).2.2 o ho _ (List.mem_singleton.mpr rfl)
      exact (hbeside o ho).mp hpair hlt
  · intro hfollows
    have hgap := hfollows.inGap hnone
    refine ⟨fun g hg => ?_, List.pairwise_append.mpr ⟨h.apart, List.pairwise_singleton _ _, fun o ho g hg => ?_⟩⟩
    · rcases List.mem_append.mp hg with ho | hg
      · rcases outside_bounds hrow hp (hnone g ho) with hlt | hlt
        · exact (spelled_insert_right (h.spelled g ho) hlt).mpr (hgap g ho hlt).1
        · exact spelled_insert_left (h.spelled g ho) hlt
      · rw [List.mem_singleton.mp hg]
        exact spelled_newText hrow hp hch
    · rw [List.mem_singleton.mp hg]
      exact (hbeside o ho).mpr fun hlt => (hgap o ho hlt).2

/-! ### Erasing -/

/-- What the line must be like for the structure to follow the erasure of the character before column
`x`. A field that begins at `x` is found there but not edited. -/
structure ErasedFollows (fields : List Field) (row : List QChar) (x : Nat) : Prop where
  inField : ∀ i f, FirstAt fields (UInt32.ofNat x) i f → f.mStart.toNat < x →
    (∀ (j : Nat) o, j < i → fields[j]? = some o → x < o.mStart.toNat →
      SpelledAt o.shown row (o.mStart.toNat + 1)) ∧
    (∀ (j : Nat) o, i < j → fields[j]? = some o → o.mEnd.toNat < x →
      (o.mStart.toNat = 0 → o.mInfo = []) ∧ SpelledAt o.shown row (o.mStart.toNat - 1)) ∧
    NoPush fields fun a b => a < i ∧ i < b
  inGap : (∀ i f, FirstAt fields (UInt32.ofNat x) i f → x ≤ f.mStart.toNat) → ∀ o ∈ fields,
    x ≤ o.mStart.toNat → SpelledAt o.shown row (o.mStart.toNat + 1)

theorem agrees_erased_iff (hrow : row.length < 2 ^ 31) (hp : p ≤ row.length) (h : Agrees fields row)
    (hfirst : FirstAt fields (UInt32.ofNat p) i f) (hlt : f.mStart.toNat < p) :
    Agrees (Line.shiftFrom (i + 1) Field.shiftLeft (fields.set i (f.withoutChar (UInt32.ofNat p - 1))))
      (row.eraseIdx (p - 1)) ↔ ErasedFollows fields row p := by
  obtain ⟨-, hge⟩ := firstAt_bounds hrow hp hfirst
  have hspelled : ∀ (j : Nat) o, fields[j]? = some o → Spelled o row :=
    fun j o ho => h.spelled o (List.mem_of_getElem? ho)
  have hparts : Agrees (Line.shiftFrom (i + 1) Field.shiftLeft
      (fields.set i (f.withoutChar (UInt32.ofNat p - 1)))) (row.eraseIdx (p - 1)) ↔ _ ∧ _ :=
    ⟨fun h' => ⟨h'.spelled, h'.apart⟩, fun h' => ⟨h'.1, h'.2⟩⟩
  -- a field that moves has a column to move to, or is empty
  have hzero : (∀ (j : Nat) o, i < j → fields[j]? = some o → o.mEnd.toNat < p → o.mStart.toNat = 0 → o.mInfo = []) →
      ∀ (j : Nat) o, i < j → fields[j]? = some o → o.mStart.toNat = 0 → o.mEnd.toNat = 0 := by
    intro hempty j o hj ho hstart
    have hsize := (hspelled j o ho).size
    rcases outside_of_ne hrow hp h hfirst hj.ne' ho with hlt' | hlt'
    · omega
    · rw [hsize, hempty j o hj ho hlt' hstart, hstart]
      rfl
  rw [hparts, forall_mem_edit hfirst.lt]
  constructor
  · rintro ⟨⟨hbefore, -, hbehind⟩, hapart⟩
    have hmoved := fun (k : Nat) o hk (ho : fields[k]? = some o) hlt' =>
      (spelled_erase_left_shiftLeft (hspelled k o ho) hlt').mp (hbehind k o hk ho)
    refine ⟨fun j g hg _ => ?_, fun hgap => ?_⟩
    · obtain ⟨rfl, rfl⟩ := hg.unique hfirst
      refine ⟨fun k o hk ho hlt' => ?_, hmoved, ?_⟩
      · exact (spelled_erase_right (by omega) (hspelled k o ho) hlt'.le).mp (hbefore k o hk ho)
      · exact (apart_erased hrow h hfirst.get (by omega)
          (hzero fun k o hk ho hlt' => (hmoved k o hk ho hlt').1) _).mp hapart
    · have := hgap i f hfirst
      omega
  · intro hfollows
    obtain ⟨hright, hleft, hpush⟩ := hfollows.inField i f hfirst hlt
    refine ⟨⟨fun k o hk ho => ?_, spelled_withoutChar (h.spelled f hfirst.mem) hlt hge, fun k o hk ho => ?_⟩, ?_⟩
    · rcases outside_of_ne hrow hp h hfirst hk.ne ho with hlt' | hlt'
      · exact (spelled_erase_right (by omega) (hspelled k o ho) hlt'.le).mpr (hright k o hk ho hlt')
      · exact spelled_erase_left (hspelled k o ho) hlt'
    · rcases outside_of_ne hrow hp h hfirst hk.ne' ho with hlt' | hlt'
      · exact spelled_erase_shiftLeft (hspelled k o ho) hlt'
      · exact (spelled_erase_left_shiftLeft (hspelled k o ho) hlt').mpr (hleft k o hk ho hlt')
    · exact (apart_erased hrow h hfirst.get (by omega)
        (hzero fun k o hk ho hlt' => (hleft k o hk ho hlt').1) _).mpr hpush

/-- Nothing is edited: no field contains the column, or one begins at it. -/
theorem agrees_unedited_iff (hrow : row.length < 2 ^ 31) (hp : p ≤ row.length) (hpos : 0 < p) (h : Agrees fields row)
    (hgap : ∀ i f, FirstAt fields (UInt32.ofNat p) i f → p ≤ f.mStart.toNat) :
    Agrees fields (row.eraseIdx (p - 1)) ↔ ErasedFollows fields row p := by
  constructor
  · intro h'
    refine ⟨fun j g hg hlt => ?_, fun _ o ho hle => ?_⟩
    · have := hgap j g hg
      omega
    · exact (spelled_erase_right hpos (h.spelled o ho) hle).mp (h'.spelled o ho)
  · intro hfollows
    refine ⟨fun o ho => ?_, h.apart⟩
    by_cases hle : p ≤ o.mStart.toNat
    · exact (spelled_erase_right hpos (h.spelled o ho) hle).mpr (hfollows.inGap hgap o ho hle)
    · have hout : o.mEnd.toNat < p := by
        by_contra hin
        obtain ⟨j, hj⟩ := List.mem_iff_getElem?.mp ho
        have hrange : o.atRange (UInt32.ofNat p) = true := by
          rw [Field.atRange_eq_true, UInt32.le_iff_toNat_le, UInt32.le_iff_toNat_le, toNat_ofNat_of_le hrow hp]
          omega
        exact hle (hgap j o (h.apart.firstAt hj hrange))
      exact spelled_erase_left (h.spelled o ho) hout

end

/-! ### Key events inside a line -/

/-- A character that would end the line in the document. -/
def breaksLine (c : QChar) : Bool := c = 0x0A || c = 0x0D || c = 0x2028 || c = separator

/-- A text that is one character: a code unit, or a surrogate pair. -/
def isCharacter : List QChar → Bool
  | [c] => !breaksLine c
  | [high, low] => 0xD800 ≤ high && high < 0xDC00 && 0xDC00 ≤ low && low < 0xE000
  | _ => false

/-- The line after a key that edits inside it, with the cursor at column `p` and nothing selected. -/
def lineEdit (keyEvent : KeyEvent) (p : Nat) (row : List QChar) : Option (List QChar) :=
  match keyEvent.key with
  | .other _ => if isCharacter keyEvent.text then some (row.take p ++ keyEvent.text ++ row.drop p) else none
  | .backspace => if 0 < p then some (row.eraseIdx (p - 1)) else none
  | .delete => if p < row.length then some (row.eraseIdx p) else none
  | _ => none

/-- The condition for a key: characters need 7 bits. -/
def Follows (keyEvent : KeyEvent) (p : Nat) (fields : List Field) (row : List QChar) : Prop :=
  match keyEvent.key with
  | .other _ => (∃ ch, keyEvent.text = [ch] ∧ ch < 128) ∧ TypedFollows fields row p
  | .backspace => ErasedFollows fields row p
  | .delete => ErasedFollows fields row (p + 1)
  | _ => False

section

variable {lm lm' : LineManager} {line : UInt32} {row : List QChar} {p : Nat}

/-- A character goes in as it is only when it is one 7-bit code unit: `after` is the line of the structure with
the code unit in it. -/
theorem agrees_text_iff {ch : QChar} {rest : List QChar} {fields after : List Field} (hp : p ≤ row.length)
    (hchar : isCharacter (ch :: rest) = true)
    (hch : ∀ row', row'[p]? = some ch → Agrees after row' → ch < 128)
    (hiff : ch < 128 → (Agrees after (row.insertIdx p ch) ↔ TypedFollows fields row p)) :
    Agrees after (row.take p ++ (ch :: rest) ++ row.drop p) ↔ (rest = [] ∧ ch < 128) ∧ TypedFollows fields row p := by
  have hget : (row.take p ++ (ch :: rest) ++ row.drop p)[p]? = some ch := by
    have hlen : (row.take p).length = p := List.length_take_of_le hp
    rw [List.append_assoc, List.getElem?_append_right (by omega), hlen]
    simp
  have hone : row.take p ++ [ch] ++ row.drop p = row.insertIdx p ch := (insertIdx_eq_append hp).symm
  have hpair : ch < 128 → rest = [] := by
    intro hlt
    match rest with
    | [] => rfl
    | [low] =>
      simp only [isCharacter, Bool.and_eq_true, decide_eq_true_eq, UInt16.le_iff_toNat_le] at hchar
      have hhigh : 0xD800 ≤ ch.toNat := hchar.1.1.1
      have hlow : ch.toNat < 128 := UInt16.lt_iff_toNat_lt.mp hlt
      omega
  constructor
  · intro h
    have hlt := hch _ hget h
    obtain rfl := hpair hlt
    rw [hone] at h
    exact ⟨⟨rfl, hlt⟩, (hiff hlt).mp h⟩
  · rintro ⟨⟨rfl, hlt⟩, hfollows⟩
    rw [hone]
    exact (hiff hlt).mpr hfollows

/-- A character that is taken, single or the first half of a pair. -/
theorem agrees_eventFilter_iff {ch : QChar} {rest : List QChar} (hrow : row.length < 2 ^ 31) (hp : p ≤ row.length)
    (hidx : Indexed (lm.fields line)) (h : Agrees (lm.fields line) row) (hchar : isCharacter (ch :: rest) = true)
    (hcall : lm.eventFilter (UInt32.ofNat p) line (QChar.toLatin1 ch) = .ok (true, lm')) :
    Agrees (lm'.fields line) (row.take p ++ (ch :: rest) ++ row.drop p) ↔
      (rest = [] ∧ ch < 128) ∧ TypedFollows (lm.fields line) row p := by
  rcases LineManager.fields_of_eventFilter hcall with ⟨i, f, hfirst, _, hfields⟩ | ⟨i, f, hfirst, hlt, _⟩ |
    ⟨hnone, hfields⟩
  · obtain ⟨hle, hge⟩ := firstAt_bounds hrow hp hfirst
    rw [hfields, hidx i f hfirst.get]
    refine agrees_text_iff hp hchar (fun row' hget h' => ?_) (agrees_typed_iff hrow hp h hfirst)
    exact lt_of_spelled_withChar (by omega) (h.spelled f hfirst.mem) hle hge hget
      ((forall_mem_edit hfirst.lt).mp h'.spelled).2.1
  · obtain ⟨hle, hge⟩ := firstAt_bounds hrow hp hfirst
    have hsize := (h.spelled f hfirst.mem).size
    rw [toNat_ofNat_sub (by omega) hle] at hlt
    omega
  · rw [hfields]
    refine agrees_text_iff hp hchar (fun row' hget h' => ?_) (agrees_created_iff hrow hp h hnone)
    exact lt_of_spelled_newText (by omega) hget (h'.spelled _ (List.mem_append_right _ (List.mem_singleton.mpr rfl)))

theorem agrees_removeCharacter_iff (hrow : row.length < 2 ^ 31) (hpos : 0 < p) (hp : p ≤ row.length)
    (hidx : Indexed (lm.fields line)) (h : Agrees (lm.fields line) row)
    (hcall : lm.removeCharacter (UInt32.ofNat p) line = .ok lm') :
    Agrees (lm'.fields line) (row.eraseIdx (p - 1)) ↔ ErasedFollows (lm.fields line) row p := by
  have hnat := toNat_ofNat_of_le hrow hp
  have hpred : UInt32.ofNat p - 1 = UInt32.ofNat (p - 1) := by
    rw [← UInt32.toNat_inj, toNat_sub_one (by omega), hnat, toNat_ofNat_of_le hrow (by omega)]
  -- the offset is past the text exactly when the field begins at the column
  have hoffset : ∀ i f, FirstAt (lm.fields line) (UInt32.ofNat p) i f →
      (f.mInfo.length < (UInt32.ofNat p - 1 - f.mStart).toNat ↔ p ≤ f.mStart.toNat) := by
    intro i f hfirst
    obtain ⟨hle, hge⟩ := firstAt_bounds hrow hp hfirst
    have hspelled := h.spelled f hfirst.mem
    have hsize := hspelled.size
    by_cases hstart : p ≤ f.mStart.toNat
    · have hlen : f.mInfo.length < 2 ^ 31 := by
        rcases hspelled.end_le_or with hend | ⟨hnil, _⟩
        · omega
        · simp [hnil]
      have heq : UInt32.ofNat p = f.mStart := by
        rw [← UInt32.toNat_inj, hnat]
        omega
      have hwrap : (UInt32.ofNat p - 1 - f.mStart).toNat = 2 ^ 32 - 1 := by
        rw [heq, show f.mStart - 1 - f.mStart = 0 - 1 by grind]
        rfl
      omega
    · rw [hpred, toNat_ofNat_sub (by omega) (by omega)]
      omega
  rcases LineManager.fields_of_removeCharacter hcall with ⟨rfl, hpast⟩ | ⟨i, f, hfirst, hle, hfields⟩
  · exact agrees_unedited_iff hrow hp hpos h fun i f hfirst => (hoffset i f hfirst).mp (hpast i f hfirst)
  · have hlt : f.mStart.toNat < p := by
      have := (hoffset i f hfirst).not.mp (by omega)
      omega
    rw [hfields, hidx i f hfirst.get]
    exact agrees_erased_iff hrow hp h hfirst hlt

end

namespace PlainEditor

open Document

variable {lm : LineManager} {d : Document} {c : Cursor d} {b : Build} {keyEvent : KeyEvent} {r : Filtered}
  {row' : List QChar}

/-- The edit of the line is what the widget does to the document. -/
theorem plain_lineEdit (clipboard : List QChar) (hctrl : keyEvent.controlModifier = false) (hsel : c.NoSelection)
    (hedit : lineEdit keyEvent c.position.column c.position.block = some row') :
    (d.widgetEdit c clipboard keyEvent).apply d.plain = plain (d.set c.position.blockNumber row') := by
  have hblock := c.position.hblock
  have hcol := c.position.hcolumn
  have hend := offset_add_length_le hblock
  have hpos : c.position.position = d.offset c.position.blockNumber + c.position.column := rfl
  have hstart := hsel.start
  have hstop := hsel.stop
  unfold lineEdit at hedit
  unfold widgetEdit
  cases hkey : keyEvent.key <;> simp only [hkey] at hedit <;> try cases hedit
  case backspace =>
    split_ifs at hedit with hzero
    obtain rfl := Option.some.inj hedit
    rw [List.eraseIdx_eq_take_drop_succ, Nat.sub_add_cancel hzero]
    simp only [hstart, hstop, if_true, hpos]
    rw [Nat.add_sub_assoc hzero, plain_set_splice hblock (by omega) hcol]
    simp [Splice.apply]
  case delete =>
    split_ifs at hedit with hlt
    obtain rfl := Option.some.inj hedit
    rw [List.eraseIdx_eq_take_drop_succ]
    simp only [hstart, hstop, if_true, hpos]
    rw [min_eq_left (by omega), Nat.add_assoc, plain_set_splice hblock hcol (by omega)]
    simp [Splice.apply]
  case other code =>
    split_ifs at hedit with hchar
    obtain rfl := Option.some.inj hedit
    have htext : keyEvent.text ≠ [] := by
      intro hnil
      rw [hnil] at hchar
      cases hchar
    simp only [hctrl, Bool.false_eq_true, if_false, if_neg htext, hstart, hstop, hpos]
    rw [plain_set_splice hblock hcol hcol]
    rfl

/-- After a key that is let through and edits inside the cursor's line, the line of the structure and
the line of the document agree again exactly when the line allowed it. -/
theorem agrees_iff (clipboard : List QChar) (hsize : d.plain.length < 2 ^ 31)
    (hidx : Indexed (lm.fields (UInt32.ofNat c.position.blockNumber)))
    (h : Agrees (lm.fields (UInt32.ofNat c.position.blockNumber)) c.position.block)
    (hctrl : keyEvent.controlModifier = false) (hsel : c.NoSelection)
    (hedit : lineEdit keyEvent c.position.column c.position.block = some row')
    (hfilter : eventFilter b c.view lm (.keyPress keyEvent) = .ok r) (hlet : r.answer = false) :
    (d.widgetEdit c clipboard keyEvent).apply d.plain = plain (d.set c.position.blockNumber row') ∧
    (Agrees (r.dataman.fields (UInt32.ofNat c.position.blockNumber)) row' ↔
      Follows keyEvent c.position.column (lm.fields (UInt32.ofNat c.position.blockNumber)) c.position.block) := by
  refine ⟨plain_lineEdit clipboard hctrl hsel hedit, ?_⟩
  have hrow : c.position.block.length < 2 ^ 31 := by
    have hend := offset_add_length_le c.position.hblock
    omega
  have hcol := c.position.hcolumn
  simp only [eventFilter, keyFilter, hctrl, Bool.false_eq_true, if_false] at hfilter
  unfold lineEdit at hedit
  unfold Follows
  cases hkey : keyEvent.key <;> simp only [hkey] at hedit hfilter <;> try cases hedit
  case backspace =>
    split_ifs at hedit with hpos
    obtain rfl := Option.some.inj hedit
    have hcall := (eraseKey_letThrough hfilter hlet).2.2
    rw [Cursor.column_view, Cursor.currentLine_view] at hcall
    exact agrees_removeCharacter_iff hrow hpos hcol hidx h hcall
  case delete =>
    split_ifs at hedit with hlt
    obtain rfl := Option.some.inj hedit
    have hcall := (eraseKey_letThrough hfilter hlet).2.2
    rw [Cursor.nextColumn_view, Cursor.currentLine_view] at hcall
    exact agrees_removeCharacter_iff hrow (Nat.succ_pos _) hlt hidx h hcall
  case other code =>
    split_ifs at hedit with hchar
    obtain rfl := Option.some.inj hedit
    obtain ⟨ch, hch, hcall⟩ := characterKey_letThrough hfilter hlet
    rw [Cursor.column_view, Cursor.currentLine_view] at hcall
    cases htext : keyEvent.text with
    | nil =>
      rw [htext] at hchar
      cases hchar
    | cons first rest =>
      obtain rfl : first = ch := by simpa [textAt0, htext] using hch
      rw [htext] at hchar
      rw [agrees_eventFilter_iff hrow hcol hidx h hchar hcall]
      simp

/-! ### A name in a line of blanks -/

/-- The name `a` at column 5 of the first line. -/
def oneName : LineManager :=
  LineManager.empty.write 0 { mNumber := 0, mFields := [⟨0, .name, 5, 6, [97]⟩] }

def nameRow : List QChar := [32, 32, 32, 32, 32, 97]

theorem agrees_oneName : Agrees (oneName.fields 0) nameRow := by
  have hfields : oneName.fields 0 = [⟨0, .name, 5, 6, [97]⟩] := LineManager.fields_write_self _ _ _
  rw [hfields]
  refine ⟨fun f hf => ?_, by decide⟩
  rw [List.mem_singleton.mp hf]
  exact ⟨rfl, by simp, by decide⟩

theorem indexed_oneName : Indexed (oneName.fields 0) := by
  have hfields : oneName.fields 0 = [⟨0, .name, 5, 6, [97]⟩] := LineManager.fields_write_self _ _ _
  rw [hfields]
  intro i f hf
  match i with
  | 0 =>
    rw [← Option.some.inj hf]

def nameCursor (column : Nat) (h : column ≤ 6) : Cursor [nameRow] :=
  { anchor := ⟨0, column, nameRow, rfl, h⟩, position := ⟨0, column, nameRow, rfl, h⟩ }

/-- Backspace behind the name. -/
theorem agrees_iff_backspace :
    (widgetEdit [nameRow] (nameCursor 6 (by decide)) [] ⟨.backspace, false, []⟩).apply (plain [nameRow]) =
      plain [[32, 32, 32, 32, 32]] ∧
    (Agrees ((LineManager.step oneName (.removeCharacter 6 0)).fields 0) [32, 32, 32, 32, 32] ↔
      Follows ⟨.backspace, false, []⟩ 6 (oneName.fields 0) nameRow) :=
  agrees_iff (c := nameCursor 6 (by decide)) (b := ⟨true, none⟩) (r := letThrough (LineManager.step oneName (.removeCharacter 6 0)))
    [] (by decide) indexed_oneName agrees_oneName rfl rfl rfl rfl rfl

/-- Typing `x` in column 0 moves the name in the document alone. -/
theorem agrees_not_kept :
    ¬∀ (b : Build) (lm : LineManager) (d : Document) (c : Cursor d) (keyEvent : KeyEvent) (r : Filtered)
      (row' : List QChar), d.plain.length < 2 ^ 31 →
      Indexed (lm.fields (UInt32.ofNat c.position.blockNumber)) →
      Agrees (lm.fields (UInt32.ofNat c.position.blockNumber)) c.position.block →
      keyEvent.controlModifier = false → c.NoSelection →
      lineEdit keyEvent c.position.column c.position.block = some row' →
      eventFilter b c.view lm (.keyPress keyEvent) = .ok r → r.answer = false →
      Agrees (r.dataman.fields (UInt32.ofNat c.position.blockNumber)) row' := by
  intro h
  have hkept := h ⟨true, none⟩ oneName [nameRow] (nameCursor 0 (by decide)) ⟨.other 0x58, false, [120]⟩ _ _
    (by decide) indexed_oneName agrees_oneName rfl rfl rfl rfl rfl
  have htext := (hkept.spelled ⟨0, .name, 5, 6, [97]⟩ (List.mem_of_getElem? (i := 0) rfl)).text
  exact absurd htext (by decide)

end PlainEditor

end MetaEditor
