import MetaEditor.Data.Field
import MetaEditor.Lib.Unicode

/-!
# The size of a text

`Utf8StringSize` steps from a byte to the next one that begins a character. So it counts the first byte,
whatever it is, and of the others those that begin a character.
-/

namespace MetaEditor

open Lib

theorem utf8StringSize_skipContinuation (res : Nat) (rest : Bytes) :
    utf8StringSize (skipContinuation res rest).2 = rest.countP (BeginsChar ·) := by
  induction rest generalizing res with
  | nil => simp [skipContinuation]
  | cons x rest ih =>
    by_cases hx : BeginsChar x
    · have hstop : skipContinuation res (x :: rest) = (res, x :: rest) := if_pos hx
      rw [hstop, utf8StringSize_cons, incUtf8StringIterator, ih, List.countP_cons_of_pos (by simpa using hx)]
    · have hskip : skipContinuation res (x :: rest) = skipContinuation (res + 1) rest := if_neg hx
      rw [hskip, ih, List.countP_cons_of_neg (by simpa using hx)]

theorem utf8StringSize_eq_countP_tail (c : UInt8) (rest : Bytes) :
    utf8StringSize (c :: rest) = rest.countP (BeginsChar ·) + 1 := by
  rw [utf8StringSize_cons, incUtf8StringIterator, utf8StringSize_skipContinuation]

/-- In a text that begins with a character it counts the bytes that begin one. -/
theorem utf8StringSize_eq_countP {s : Bytes} (h : ∀ b ∈ s.head?, BeginsChar b) :
    utf8StringSize s = s.countP (BeginsChar ·) := by
  cases s with
  | nil => exact utf8StringSize_nil
  | cons c rest =>
    rw [utf8StringSize_eq_countP_tail, List.countP_cons_of_pos (by simpa using h c rfl)]

/-- `Utf8StringSize` counts characters. -/
theorem utf8StringSize_utf8 (chars : List Char) : utf8StringSize (utf8 chars) = chars.length := by
  rw [utf8StringSize_eq_countP (beginsChar_head_utf8 chars), countP_utf8]

/-! ### The loop -/

/-- A turn of the loop of `Utf8StringSize`: the iterator, as an index into the string, and `res`. -/
def sizeTurn (str : Bytes) (s : Nat × Nat) : Nat × Nat :=
  (s.1 + (incUtf8StringIterator (str.drop s.1)).1, s.2 + 1)

/-- From a place in the string the loop takes a turn for each character behind it, and ends at the end. -/
theorem sizeTurn_iterate {str : Bytes} {i : Nat} (hi : i ≤ str.length) (res : Nat) :
    (∀ k < utf8StringSize (str.drop i), ((sizeTurn str)^[k] (i, res)).1 < str.length) ∧
      (sizeTurn str)^[utf8StringSize (str.drop i)] (i, res) = (str.length, res + utf8StringSize (str.drop i)) := by
  generalize hs : str.drop i = s
  induction s using utf8StringSize.induct generalizing i res with
  | case1 =>
    have hend : i = str.length := le_antisymm hi (List.drop_eq_nil_iff.mp hs)
    simp [hend]
  | case2 c rest ih =>
    obtain ⟨-, hle, hrest⟩ := incUtf8StringIterator_drop c rest
    have hturn : sizeTurn str (i, res) = (i + (incUtf8StringIterator (c :: rest)).1, res + 1) := by rw [sizeTurn, hs]
    have hlength : (c :: rest).length = str.length - i := by rw [← hs, List.length_drop]
    have hlt : i < str.length := by
      rw [List.length_cons] at hlength
      omega
    have hdrop : str.drop (i + (incUtf8StringIterator (c :: rest)).1) = (incUtf8StringIterator (c :: rest)).2 := by
      rw [hrest, ← hs, List.drop_drop]
    obtain ⟨hbefore, hend⟩ := ih (by omega) (res + 1) hdrop
    rw [utf8StringSize_cons]
    refine ⟨fun k hk => ?_, ?_⟩
    · cases k with
      | zero => exact hlt
      | succ k =>
        rw [Function.iterate_succ_apply, hturn]
        exact hbefore k (by omega)
    · rw [Function.iterate_succ_apply, hturn, hend, Nat.add_assoc, Nat.add_comm 1]

theorem utf8StringSize_eq_zero {str : Bytes} : utf8StringSize str = 0 ↔ str = [] := by
  cases str with
  | nil => simp
  | cons c rest => simp [utf8StringSize_cons]

/-- Of any string, the loop comes to the end without going past it, after one turn for each character. In
a string that encodes characters these are the characters. -/
theorem utf8StringSize_counts (str : Bytes) :
    (∀ k < utf8StringSize str, ((sizeTurn str)^[k] (0, 0)).1 < str.length) ∧
      (sizeTurn str)^[utf8StringSize str] (0, 0) = (str.length, utf8StringSize str) ∧
      utf8StringSize str ≤ str.length ∧ (utf8StringSize str = 0 ↔ str = []) ∧
      ∀ chars : List Char, str = utf8 chars → utf8StringSize str = chars.length := by
  obtain ⟨hbefore, hend⟩ := sizeTurn_iterate (Nat.zero_le str.length) 0
  rw [List.drop_zero] at hbefore hend
  rw [Nat.zero_add] at hend
  refine ⟨hbefore, hend, utf8StringSize_le str, utf8StringSize_eq_zero, fun chars hchars => ?_⟩
  rw [hchars, utf8StringSize_utf8]

/-! ### 7-bit text -/

theorem beginsChar_of_ascii {b : UInt8} (h : b < 128) : BeginsChar b :=
  (beginsChar_iff b).mpr (.inl (UInt8.lt_iff_toNat_lt.mp h))

/-- A 7-bit text has as many characters as bytes. -/
theorem utf8StringSize_of_ascii {s : Bytes} (h : ∀ b ∈ s, b < 128) : utf8StringSize s = s.length := by
  rw [utf8StringSize_eq_countP fun b hb => beginsChar_of_ascii (h b (List.mem_of_mem_head? hb)), List.countP_eq_length]
  exact fun b hb => by simpa using beginsChar_of_ascii (h b hb)

end MetaEditor
