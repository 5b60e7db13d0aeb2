import Mathlib.Data.List.InsertIdx

/-!
# One element of a list

A list around one of its elements: what its members are, how an index splits it there, and when an
element can be pushed on a list instead of being put in at a depth.
-/

namespace MetaEditor.Lib

variable {α : Type*} {x y : α} {before after l above : List α} {n : Nat}

theorem mem_middle : y ∈ before ++ x :: after ↔ y = x ∨ y ∈ before ++ after :=
  List.perm_middle.mem_iff.trans List.mem_cons

theorem forall_mem_middle {P : α → Prop} :
    (∀ y ∈ before ++ x :: after, P y) ↔ (∀ y ∈ before, P y) ∧ P x ∧ ∀ y ∈ after, P y := by
  rw [List.forall_mem_append, List.forall_mem_cons]

theorem exists_middle_of_getElem? (h : l[n]? = some x) :
    ∃ before after, l = before ++ x :: after ∧ before.length = n := by
  obtain ⟨hn, rfl⟩ := List.getElem?_eq_some_iff.mp h
  refine ⟨l.take n, l.drop (n + 1), ?_, List.length_take_of_le (Nat.le_of_lt hn)⟩
  rw [← List.drop_eq_getElem_cons hn, List.take_append_drop]

theorem mem_take_of_getElem? {k : Nat} (hk : k < n) (h : l[k]? = some x) : x ∈ l.take n := by
  refine List.mem_of_getElem? (i := k) ?_
  rw [List.getElem?_take_of_lt hk, h]

theorem mem_drop_of_getElem? {k : Nat} (hk : n ≤ k) (h : l[k]? = some x) : x ∈ l.drop n := by
  refine List.mem_of_getElem? (i := k - n) ?_
  rw [List.getElem?_drop, Nat.add_sub_cancel' hk, h]

theorem insertIdx_eq_append (h : n ≤ l.length) : l.insertIdx n x = l.take n ++ [x] ++ l.drop n := by
  induction l generalizing n with
  | nil =>
    obtain rfl : n = 0 := by simpa using h
    rfl
  | cons y l ih =>
    cases n with
    | zero => rfl
    | succ n => simpa using ih (by simpa using h)

/-- A value on top of a list is the same as below it exactly when the list repeats it. -/
theorem cons_eq_append_singleton_iff : x :: l = l ++ [x] ↔ ∀ y ∈ l, y = x := by
  induction l with
  | nil => simp
  | cons y l ih =>
    rw [List.cons_append, List.cons.injEq, List.forall_mem_cons, ← ih]
    constructor
    · rintro ⟨rfl, h⟩
      exact ⟨rfl, h⟩
    · rintro ⟨rfl, h⟩
      exact ⟨rfl, h⟩

/-- A value pushed on a list is found `n` places down. -/
theorem cons_append_eq_insert_iff :
    x :: (above ++ l) = l.take n ++ x :: l.drop n ↔ above = [] ∧ ∀ y ∈ l.take n, y = x := by
  have hparts : x :: l = x :: l.take n ++ l.drop n := by rw [List.cons_append, List.take_append_drop]
  have hinsert : l.take n ++ x :: l.drop n = (l.take n ++ [x]) ++ l.drop n := List.append_cons _ _ _
  rw [← cons_eq_append_singleton_iff]
  constructor
  · intro h
    have hlength := congrArg List.length h
    simp only [List.length_cons, List.length_append, List.length_take, List.length_drop] at hlength
    have habove : above = [] := List.length_eq_zero_iff.mp (by omega)
    rw [habove, List.nil_append, hparts, hinsert] at h
    exact ⟨habove, List.append_cancel_right h⟩
  · rintro ⟨rfl, h⟩
    rw [List.nil_append, hparts, hinsert, h]

end MetaEditor.Lib
