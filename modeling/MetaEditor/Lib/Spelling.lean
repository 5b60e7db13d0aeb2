import MetaEditor.Lib.Middle
import MetaEditor.Lib.Run

/-!
# Texts at columns of a row

`SpelledAt text row s`: the characters of `text` stand in `row` from column `s` on. One character
goes into the row or out of it, and the lemmas say where a text stands then: before the edit as it
was, behind it one column further, and around it with the character put in or taken out as well.
-/

namespace MetaEditor.Lib

variable {α : Type*} {text row : List α} {s p : Nat}

def SpelledAt (text row : List α) (s : Nat) : Prop := text <+: row.drop s

instance [DecidableEq α] (text row : List α) (s : Nat) : Decidable (SpelledAt text row s) :=
  inferInstanceAs (Decidable (_ <+: _))

theorem spelledAt_iff : SpelledAt text row s ↔ ∀ k < text.length, row[s + k]? = text[k]? := by
  rw [SpelledAt, List.prefix_iff_getElem?]
  simp only [List.getElem?_drop]
  refine forall_congr' fun k => forall_congr' fun hk => ?_
  rw [List.getElem?_eq_getElem hk]

theorem spelledAt_nil : SpelledAt [] row s := List.nil_prefix

/-- The columns of a text that is not empty are columns of the row. -/
theorem SpelledAt.end_le (h : SpelledAt text row s) (hne : text ≠ []) : s + text.length ≤ row.length := by
  have hle := List.IsPrefix.length_le h
  have hpos := List.length_pos_iff.mpr hne
  rw [List.length_drop] at hle
  omega

theorem SpelledAt.getElem? (h : SpelledAt text row s) {k : Nat} (hk : k < text.length) :
    row[s + k]? = text[k]? := spelledAt_iff.mp h k hk

/-! ### Parts of a row -/

theorem spelledAt_take_iff {n : Nat} (h : SpelledAt text row s) :
    SpelledAt text (row.take n) s ↔ text = [] ∨ s + text.length ≤ n := by
  constructor
  · intro htake
    by_cases hne : text = []
    · exact .inl hne
    · have hend := htake.end_le hne
      rw [List.length_take] at hend
      exact .inr (by omega)
  · rintro (rfl | hle)
    · exact spelledAt_nil
    · rw [spelledAt_iff] at h ⊢
      intro k hk
      rw [List.getElem?_take_of_lt (by omega)]
      exact h k hk

theorem spelledAt_drop_iff {n : Nat} :
    SpelledAt text (row.drop n) s ↔ SpelledAt text row (n + s) := by
  rw [SpelledAt, SpelledAt, List.drop_drop]

theorem spelledAt_append {rest : List α} (h : SpelledAt text row s) :
    SpelledAt text (row ++ rest) s := by
  by_cases hne : text = []
  · rw [hne]
    exact spelledAt_nil
  · have hend := h.end_le hne
    rw [SpelledAt, List.drop_append_of_le_length (by omega)]
    exact h.trans (List.prefix_append _ _)

/-! ### A character goes in -/

variable {c : α}

theorem spelledAt_insertIdx_before (h : s + text.length ≤ p) :
    SpelledAt text (row.insertIdx p c) s ↔ SpelledAt text row s := by
  rw [spelledAt_iff, spelledAt_iff]
  refine forall_congr' fun k => forall_congr' fun hk => ?_
  rw [List.getElem?_insertIdx_of_lt (by omega)]

theorem spelledAt_insertIdx_behind (h : p ≤ s) :
    SpelledAt text (row.insertIdx p c) (s + 1) ↔ SpelledAt text row s := by
  rw [spelledAt_iff, spelledAt_iff]
  refine forall_congr' fun k => forall_congr' fun hk => ?_
  rw [List.getElem?_insertIdx_of_gt (by omega), show s + 1 + k - 1 = s + k by omega]

theorem SpelledAt.insertIdx (h : SpelledAt text row s) (hs : s ≤ p) (hp : p ≤ s + text.length)
    (hline : p ≤ row.length) : SpelledAt (text.insertIdx (p - s) c) (row.insertIdx p c) s := by
  rw [spelledAt_iff]
  intro k hk
  rw [List.length_insertIdx_of_le_length (by omega)] at hk
  rcases Nat.lt_trichotomy (s + k) p with hlt | heq | hlt
  · rw [List.getElem?_insertIdx_of_lt hlt, List.getElem?_insertIdx_of_lt (by omega), h.getElem? (by omega)]
  · rw [heq, show k = p - s by omega, List.getElem?_insertIdx_self, List.getElem?_insertIdx_self,
      if_pos hline, if_pos (by omega)]
  · rw [List.getElem?_insertIdx_of_gt hlt, List.getElem?_insertIdx_of_gt (by omega),
      show s + k - 1 = s + (k - 1) by omega, h.getElem? (by omega)]

/-! ### A character goes out -/

theorem spelledAt_eraseIdx_before (h : s + text.length ≤ p) :
    SpelledAt text (row.eraseIdx p) s ↔ SpelledAt text row s := by
  rw [spelledAt_iff, spelledAt_iff]
  refine forall_congr' fun k => forall_congr' fun hk => ?_
  rw [List.getElem?_eraseIdx_of_lt (by omega)]

theorem spelledAt_eraseIdx_behind (h : p ≤ s) :
    SpelledAt text (row.eraseIdx p) s ↔ SpelledAt text row (s + 1) := by
  rw [spelledAt_iff, spelledAt_iff]
  refine forall_congr' fun k => forall_congr' fun hk => ?_
  rw [List.getElem?_eraseIdx_of_ge (by omega), show s + k + 1 = s + 1 + k by omega]

theorem SpelledAt.eraseIdx (h : SpelledAt text row s) (hs : s ≤ p) (hp : p < s + text.length) :
    SpelledAt (text.eraseIdx (p - s)) (row.eraseIdx p) s := by
  rw [spelledAt_iff]
  intro k hk
  rw [List.length_eraseIdx_of_lt (by omega)] at hk
  by_cases hlt : s + k < p
  · rw [List.getElem?_eraseIdx_of_lt hlt, List.getElem?_eraseIdx_of_lt (by omega), h.getElem? (by omega)]
  · rw [List.getElem?_eraseIdx_of_ge (by omega), List.getElem?_eraseIdx_of_ge (by omega),
      show s + k + 1 = s + (k + 1) by omega, h.getElem? (by omega)]

end MetaEditor.Lib
