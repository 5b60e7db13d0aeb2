import Mathlib.Data.List.DropRight

/-!
# The results of a C function

`luaD_precall` runs a C function above its place on the stack and takes the integer `n` that it returns for
the number of its results: `L->top - n` is the first of them. `luaD_poscall` moves them down to where the
function was, fills up with nil to the number that the caller wants, and ends the stack there.
-/

namespace MetaEditor

variable {V : Type*}

/-- The count is one of results that the function has left above itself. -/
def HonestCount (n : Int) (frame : List V) : Prop := 0 ≤ n ∧ n ≤ frame.length

instance (n : Int) (frame : List V) : Decidable (HonestCount n frame) := inferInstanceAs (Decidable (_ ∧ _))

/-- The first loop of `luaD_poscall`, with the stack up to `L->top`: what it makes of the stack, where it
comes to, and how many results are still wanted. -/
def moveResults (stack : List V) (res firstResult : Nat) : Nat → List V × Nat × Nat
  | 0 => (stack, res, 0)
  | i + 1 =>
    match stack[firstResult]? with
    | none => (stack, res, i + 1)
    | some v => moveResults (stack.set res v) (res + 1) (firstResult + 1) i

/-- `luaD_poscall(L, L->top - n)`. Without a number of wanted results there are turns enough for all of them.
It is `none` when the first result is below the bottom of the stack. -/
def poscall (nil : V) (stack : List V) (func : Nat) (n : Int) (nresults : Option Nat) : Option (List V) :=
  let firstResult : Int := stack.length - n
  if firstResult < 0 then none
  else
    match nresults with
    | none =>
      let (stack', res, _) := moveResults stack func firstResult.toNat stack.length
      some (stack'.take res)
    | some wanted =>
      let (stack', res, i) := moveResults stack func firstResult.toNat wanted
      some (stack'.take res ++ List.replicate i nil)

/-- Results above a place that is free are moved down to it. -/
theorem moveResults_append (before gap results : List V) (hgap : gap ≠ []) (i : Nat) :
    ∃ rest, moveResults (before ++ gap ++ results) before.length (before ++ gap).length i =
      (before ++ results.take i ++ rest, (before ++ results.take i).length, i - results.length) := by
  induction i generalizing before gap results with
  | zero => exact ⟨gap ++ results, by simp [moveResults]⟩
  | succ i ih =>
    cases results with
    | nil => exact ⟨gap, by simp [moveResults]⟩
    | cons v results =>
      obtain ⟨g, gap, rfl⟩ := List.exists_cons_of_ne_nil hgap
      obtain ⟨rest, hrest⟩ := ih (before ++ [v]) (gap ++ [v]) results (by simp)
      have hget : (before ++ g :: gap ++ v :: results)[(before ++ g :: gap).length]? = some v := by simp
      have hset : (before ++ g :: gap ++ v :: results).set before.length v =
          before ++ [v] ++ (gap ++ [v]) ++ results := by simp
      have hres : (before ++ [v]).length = before.length + 1 := by simp
      have hfirst : (before ++ [v] ++ (gap ++ [v])).length = (before ++ g :: gap).length + 1 := by
        simp only [List.length_append, List.length_cons, List.length_nil]
        omega
      have htake : before ++ [v] ++ results.take i = before ++ (v :: results).take (i + 1) := by simp
      rw [hres, hfirst, htake] at hrest
      refine ⟨rest, ?_⟩
      rw [moveResults, hget]
      simp only [hset]
      rw [hrest, List.length_cons, Nat.add_sub_add_right]

/-- The last `m` values above the function, with what is below them. -/
theorem stack_eq_rtake (before : List V) (f : V) {m : Nat} {frame : List V} (hm : m ≤ frame.length) :
    before ++ f :: frame = before ++ (f :: frame.take (frame.length - m)) ++ frame.rtake m ∧
      (frame.rtake m).length = m ∧
      ((before ++ f :: frame).length - (m : Int)) =
        ((before ++ (f :: frame.take (frame.length - m))).length : Int) := by
  refine ⟨?_, ?_, ?_⟩
  · rw [List.append_assoc, List.cons_append, List.rtake, List.take_append_drop]
  · rw [List.rtake, List.length_drop]
    omega
  · simp only [List.length_append, List.length_cons, List.length_take]
    omega

/-- Of an honest count the caller gets the values on top of what the function has left, as many as it wants
and nil for the others, and its own part of the stack is as before. -/
theorem poscall_of_honest (nil : V) (before : List V) (f : V) {n : Int} {frame : List V} (h : HonestCount n frame) :
    poscall nil (before ++ f :: frame) before.length n none = some (before ++ frame.rtake n.toNat) ∧
      ∀ wanted, poscall nil (before ++ f :: frame) before.length n (some wanted) =
        some (before ++ (frame.rtake n.toNat).take wanted ++ List.replicate (wanted - n.toNat) nil) := by
  obtain ⟨hpos, hle⟩ := h
  obtain ⟨m, rfl⟩ := Int.eq_ofNat_of_zero_le hpos
  rw [Int.toNat_natCast]
  obtain ⟨hstack, hlength, hfirst⟩ := stack_eq_rtake before f (show m ≤ frame.length by omega)
  have hmove : ∀ i, ∃ rest, moveResults (before ++ f :: frame) before.length
      (before ++ (f :: frame.take (frame.length - m))).length i =
      (before ++ (frame.rtake m).take i ++ rest, (before ++ (frame.rtake m).take i).length, i - m) := by
    intro i
    obtain ⟨rest, hrest⟩ := moveResults_append before (f :: frame.take (frame.length - m)) (frame.rtake m)
      (List.cons_ne_nil _ _) i
    rw [hlength, ← hstack] at hrest
    exact ⟨rest, hrest⟩
  refine ⟨?_, fun wanted => ?_⟩
  · obtain ⟨rest, hrest⟩ := hmove (before ++ f :: frame).length
    have hall : (frame.rtake m).take (before ++ f :: frame).length = frame.rtake m :=
      List.take_of_length_le (by rw [hlength, List.length_append, List.length_cons]; omega)
    rw [poscall, hfirst, if_neg (by omega)]
    simp only [Int.toNat_natCast, hrest, hall, List.take_left]
  · obtain ⟨rest, hrest⟩ := hmove wanted
    rw [poscall, hfirst, if_neg (by omega)]
    simp only [Int.toNat_natCast, hrest, List.take_left]

/-- Of a negative count the caller gets nil for each value it wants: the first result is above the stack. -/
theorem poscall_of_neg (nil : V) (before : List V) (f : V) {n : Int} {frame : List V} (h : n < 0) (wanted : Nat) :
    poscall nil (before ++ f :: frame) before.length n (some wanted) =
      some (before ++ List.replicate wanted nil) := by
  have hnone : (before ++ f :: frame)[((before ++ f :: frame).length - n).toNat]? = none :=
    List.getElem?_eq_none (by omega)
  have hmove : moveResults (before ++ f :: frame) before.length ((before ++ f :: frame).length - n).toNat wanted =
      (before ++ f :: frame, before.length, wanted) := by
    cases wanted with
    | zero => rfl
    | succ i => rw [moveResults, hnone]
  rw [poscall, if_neg (by omega)]
  simp only [hmove, List.take_left]

end MetaEditor
