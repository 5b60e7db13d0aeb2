import MetaEditor.Lib.Run

/-!
# Systems made of parts

The state is seen part by part, under keys. A step works at one key: what is seen at the others stays, and at its
own key it does what a machine for one part does, which sees nothing else. Then a run does at each key what that
machine does on the inputs of the key, and the order of inputs that work at different keys makes no difference.
-/

namespace MetaEditor.Lib

variable {σ ι κ ω : Type*} [DecidableEq κ] {step : σ → ι → σ} {key : σ → ι → κ} {view : σ → κ → ω} {part : ω → ι → ω}

/-- Each step works at one key, as the machine for a part does. -/
structure Local (step : σ → ι → σ) (key : σ → ι → κ) (view : σ → κ → ω) (part : ω → ι → ω) : Prop where
  others : ∀ s i k, key s i ≠ k → view (step s i) k = view s k
  own : ∀ s i, view (step s i) (key s i) = part (view s (key s i)) i

/-- The inputs of a run that work at a key. -/
def inputsAt (step : σ → ι → σ) (key : σ → ι → κ) (k : κ) : σ → List ι → List ι
  | _, [] => []
  | s, i :: inputs =>
    if key s i = k then i :: inputsAt step key k (step s i) inputs else inputsAt step key k (step s i) inputs

/-- A run of the system is, at each key, a run of the part. -/
theorem Local.view_run (h : Local step key view part) (k : κ) (s : σ) (inputs : List ι) :
    view (run step s inputs) k = run part (view s k) (inputsAt step key k s inputs) := by
  induction inputs generalizing s with
  | nil => rfl
  | cons i inputs ih =>
    rw [run_cons, ih, inputsAt]
    split_ifs with hkey
    · subst hkey
      rw [run_cons, h.own]
    · rw [h.others s i k hkey]

/-- A key that does not depend on the state picks the inputs out of the list. -/
theorem inputsAt_eq_filter (key : ι → κ) (k : κ) (s : σ) (inputs : List ι) :
    inputsAt step (fun _ => key) k s inputs = inputs.filter (key · = k) := by
  induction inputs generalizing s with
  | nil => rfl
  | cons i inputs ih =>
    rw [inputsAt, ih]
    by_cases hkey : key i = k
    · rw [if_pos hkey, List.filter_cons_of_pos (by simpa using hkey)]
    · rw [if_neg hkey, List.filter_cons_of_neg (by simpa using hkey)]

/-- Two series with the same inputs at every key, each in its order, lead to states that look the same. -/
theorem Local.view_run_congr {key : ι → κ} (h : Local step (fun _ => key) view part) {inputs inputs' : List ι}
    (heq : ∀ k, inputs.filter (key · = k) = inputs'.filter (key · = k)) (s : σ) (k : κ) :
    view (run step s inputs) k = view (run step s inputs') k := by
  rw [h.view_run, h.view_run, inputsAt_eq_filter, inputsAt_eq_filter, heq]

end MetaEditor.Lib
