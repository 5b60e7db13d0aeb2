import Mathlib

/-!
# A consumer that can refuse

A consumer takes the elements of a list one after the other, has a state of its own and answers each with
a status. It is asked until its first status that is not `ok`: `taken` are the elements that it has been
given by then and `outcome` is that status.
-/

namespace MetaEditor.Lib

variable {σ β γ : Type*}

/-- The state after the elements. -/
def feed (w : σ → β → γ × σ) (s : σ) (l : List β) : σ := l.foldl (fun s b => (w s b).2) s

/-- The status for element `k`, if all elements before it have been given. -/
def statusAt (w : σ → β → γ × σ) (s : σ) (l : List β) (k : Nat) : Option γ :=
  l[k]?.map fun b => (w (feed w s (l.take k)) b).1

variable {w : σ → β → γ × σ} {ok : γ} {s : σ} {b : β} {l : List β}

theorem statusAt_zero : statusAt w s (b :: l) 0 = some (w s b).1 := rfl

theorem statusAt_succ (k : Nat) : statusAt w s (b :: l) (k + 1) = statusAt w (w s b).2 l k := rfl

variable [DecidableEq γ]

def taken (w : σ → β → γ × σ) (ok : γ) (s : σ) : List β → List β
  | [] => []
  | b :: l => b :: if (w s b).1 = ok then taken w ok (w s b).2 l else []

def outcome (w : σ → β → γ × σ) (ok : γ) (s : σ) : List β → γ
  | [] => ok
  | b :: l => if (w s b).1 = ok then outcome w ok (w s b).2 l else (w s b).1

/-- Everything is given and answered `ok`, or everything up to the first element that is not. -/
theorem taken_cases (w : σ → β → γ × σ) (ok : γ) (s : σ) (l : List β) :
    (taken w ok s l = l ∧ outcome w ok s l = ok ∧ ∀ k < l.length, statusAt w s l k = some ok) ∨
    ∃ k < l.length, taken w ok s l = l.take (k + 1) ∧ outcome w ok s l ≠ ok ∧
      statusAt w s l k = some (outcome w ok s l) ∧ ∀ j < k, statusAt w s l j = some ok := by
  induction l generalizing s with
  | nil => exact .inl ⟨rfl, rfl, fun k hk => absurd hk (Nat.not_lt_zero k)⟩
  | cons b l ih =>
    rw [taken, outcome]
    by_cases hb : (w s b).1 = ok
    · rw [if_pos hb, if_pos hb]
      have hstep : ∀ k, (∀ j < k, statusAt w (w s b).2 l j = some ok) →
          ∀ j < k + 1, statusAt w s (b :: l) j = some ok := by
        intro k h j hj
        cases j with
        | zero => rw [statusAt_zero, hb]
        | succ j => exact (statusAt_succ j).trans (h j (Nat.lt_of_succ_lt_succ hj))
      rcases ih (w s b).2 with ⟨htaken, hout, hall⟩ | ⟨k, hk, htaken, hout, hstatus, hbefore⟩
      · exact .inl ⟨by rw [htaken], hout, hstep l.length hall⟩
      · exact .inr ⟨k + 1, Nat.succ_lt_succ hk, by rw [htaken, List.take_succ_cons], hout, hstatus, hstep k hbefore⟩
    · rw [if_neg hb, if_neg hb]
      exact .inr ⟨0, Nat.succ_pos _, rfl, hb, rfl, fun j hj => absurd hj (Nat.not_lt_zero j)⟩

/-- A consumer that never refuses is given everything. -/
theorem taken_of_ok (h : ∀ s b, (w s b).1 = ok) (s : σ) (l : List β) : taken w ok s l = l := by
  induction l generalizing s with
  | nil => rfl
  | cons b l ih => rw [taken, if_pos (h s b), ih]

theorem outcome_of_ok (h : ∀ s b, (w s b).1 = ok) (s : σ) (l : List β) : outcome w ok s l = ok := by
  induction l generalizing s with
  | nil => rfl
  | cons b l ih => rw [outcome, if_pos (h s b), ih]

end MetaEditor.Lib
