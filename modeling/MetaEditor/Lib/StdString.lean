import MetaEditor.Lib.Run

/-!
# Byte strings

`std::string` as the editor uses it: a list of bytes with insertion and erasure at an offset, both of
which throw `std::out_of_range` when the offset is past the end and touch nothing before they throw.
-/

namespace MetaEditor.Lib

/-- The bytes of a `std::string`. -/
abbrev Bytes := List UInt8

/-- How a call can end without returning: `std::out_of_range`, or a failed `Q_ASSERT`. -/
inductive Failure
  | outOfRange
  | assertion
  deriving DecidableEq, Repr

/-- A call that returns made its first part return. -/
theorem exists_of_bind_eq_ok.{u, v} {ε : Type u} {α β : Type v} {x : Except ε α} {f : α → Except ε β} {b : β}
    (h : (x >>= f) = .ok b) : ∃ a, x = .ok a ∧ f a = .ok b := by
  cases x with
  | error e => cases h
  | ok a => exact ⟨a, rfl, h⟩

/-- `std::string(const char*)` reads up to the first NUL. -/
def cString (buffer : Bytes) : Bytes := buffer.takeWhile (· != 0)

/-- `s.insert(pos, t)`. -/
def insertAt (s : Bytes) (pos : Nat) (t : Bytes) : Except Failure Bytes :=
  if pos ≤ s.length then .ok (s.take pos ++ t ++ s.drop pos) else .error .outOfRange

/-- `s.erase(pos, n)`: as many of the `n` bytes as there are. -/
def eraseAt (s : Bytes) (pos n : Nat) : Except Failure Bytes :=
  if pos ≤ s.length then .ok (s.take pos ++ s.drop (pos + n)) else .error .outOfRange

/-- `s.find_last_of(c)`; `none` is `npos`. -/
def findLastOf (c : UInt8) : Bytes → Option Nat
  | [] => none
  | b :: s =>
    match findLastOf c s with
    | some i => some (i + 1)
    | none => if b = c then some 0 else none

theorem getElem?_findLastOf {c : UInt8} {s : Bytes} {i : Nat} (h : findLastOf c s = some i) : s[i]? = some c := by
  induction s generalizing i with
  | nil => cases h
  | cons b s ih =>
    rw [findLastOf] at h
    cases hs : findLastOf c s with
    | some j =>
      rw [hs] at h
      cases h
      exact ih hs
    | none =>
      simp only [hs] at h
      split_ifs at h with hb
      cases h
      rw [hb]
      rfl

theorem zero_notMem_cString (buffer : Bytes) : (0 : UInt8) ∉ cString buffer := by
  intro hmem
  simpa using List.mem_takeWhile_imp hmem

/-- A string without NUL is read whole. -/
theorem cString_eq_self {buffer : Bytes} (h : (0 : UInt8) ∉ buffer) : cString buffer = buffer := by
  refine List.takeWhile_eq_self_iff.mpr fun b hb => ?_
  simpa using fun h0 : b = 0 => h (h0 ▸ hb)

theorem cString_append {s : Bytes} (h : (0 : UInt8) ∉ s) (rest : Bytes) : cString (s ++ 0 :: rest) = s := by
  rw [cString, List.takeWhile_append_of_pos]
  · simp
  · intro b hb
    simpa using fun h0 : b = 0 => h (h0 ▸ hb)

/-- The NUL behind a string ends it, if none in it does. -/
theorem cString_append_zero (s : Bytes) : cString (s ++ [0]) = cString s := by
  induction s with
  | nil => rfl
  | cons b s ih =>
    rw [cString] at ih
    rw [List.cons_append, cString, List.takeWhile_cons, cString, List.takeWhile_cons, ih]
    rfl

theorem exists_eq_cString_append {buffer : Bytes} (h : (0 : UInt8) ∈ buffer) :
    ∃ rest, buffer = cString buffer ++ 0 :: rest := by
  have hne : buffer.dropWhile (· != 0) ≠ [] := by
    intro hnil
    simpa using List.dropWhile_eq_nil_iff.mp hnil 0 h
  obtain ⟨x, rest, hrest⟩ := List.exists_cons_of_ne_nil hne
  have hx : x = 0 := by
    have hhead := List.head?_dropWhile_not (· != (0 : UInt8)) buffer
    rw [hrest] at hhead
    simpa using hhead
  rw [hx] at hrest
  refine ⟨rest, ?_⟩
  rw [cString, ← hrest, List.takeWhile_append_dropWhile]

theorem insertAt_of_le {s : Bytes} {pos : Nat} (h : pos ≤ s.length) (t : Bytes) :
    insertAt s pos t = .ok (s.take pos ++ t ++ s.drop pos) := if_pos h

theorem insertAt_of_lt {s : Bytes} {pos : Nat} (h : s.length < pos) (t : Bytes) :
    insertAt s pos t = .error .outOfRange := if_neg (by omega)

theorem eraseAt_of_le {s : Bytes} {pos : Nat} (h : pos ≤ s.length) (n : Nat) :
    eraseAt s pos n = .ok (s.take pos ++ s.drop (pos + n)) := if_pos h

theorem eraseAt_of_lt {s : Bytes} {pos : Nat} (h : s.length < pos) (n : Nat) :
    eraseAt s pos n = .error .outOfRange := if_neg (by omega)

end MetaEditor.Lib
