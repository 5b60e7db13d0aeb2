import Mathlib

/-!
# Runs of a step function

A system is a state, an input and a total step function. `run` is the state after a list of inputs.
Two rules are enough for everything that is said about whole runs: an invariant that every step keeps
is kept by every run (`run_inv`), and an invariant that a step keeps when its input meets a condition
is kept by every run whose steps all meet it (`run_inv_of_stepsMeet`).
-/

namespace MetaEditor.Lib

variable {σ ι : Type*} {step : σ → ι → σ}

/-- The state after the inputs, one step each. -/
def run (step : σ → ι → σ) (s : σ) (inputs : List ι) : σ := inputs.foldl step s

@[simp] theorem run_nil (s : σ) : run step s [] = s := rfl

@[simp] theorem run_cons (s : σ) (i : ι) (inputs : List ι) :
    run step s (i :: inputs) = run step (step s i) inputs := rfl

theorem run_append (s : σ) (before after : List ι) :
    run step s (before ++ after) = run step (run step s before) after :=
  List.foldl_append

/-- What every step keeps, every run keeps. -/
theorem run_inv (Inv : σ → Prop) (hstep : ∀ s i, Inv s → Inv (step s i)) (inputs : List ι) {s : σ}
    (hinv : Inv s) : Inv (run step s inputs) := by
  induction inputs generalizing s with
  | nil => exact hinv
  | cons i inputs ih => exact ih (hstep s i hinv)

/-- Every step of the run is taken in a state and on an input that `C` allows. -/
def StepsMeet (step : σ → ι → σ) (C : σ → ι → Prop) : σ → List ι → Prop
  | _, [] => True
  | s, i :: inputs => C s i ∧ StepsMeet step C (step s i) inputs

instance StepsMeet.decidable (C : σ → ι → Prop) [∀ s i, Decidable (C s i)] (s : σ) (inputs : List ι) :
    Decidable (StepsMeet step C s inputs) :=
  match inputs with
  | [] => .isTrue trivial
  | i :: inputs => @instDecidableAnd _ _ _ (StepsMeet.decidable C (step s i) inputs)

/-- What a step keeps under a condition, a run keeps when all its steps meet the condition. -/
theorem run_inv_of_stepsMeet (Inv : σ → Prop) {C : σ → ι → Prop}
    (hstep : ∀ s i, Inv s → C s i → Inv (step s i)) {inputs : List ι} {s : σ} (hinv : Inv s)
    (hmeet : StepsMeet step C s inputs) : Inv (run step s inputs) := by
  induction inputs generalizing s with
  | nil => exact hinv
  | cons i inputs ih => exact ih (hstep s i hinv hmeet.1) hmeet.2

/-- A condition on the inputs alone is met when all inputs meet it. -/
theorem stepsMeet_forall_iff {P : ι → Prop} {inputs : List ι} {s : σ} :
    StepsMeet step (fun _ i => P i) s inputs ↔ ∀ i ∈ inputs, P i := by
  induction inputs generalizing s with
  | nil => exact iff_of_true trivial nofun
  | cons i inputs ih =>
    rw [List.forall_mem_cons]
    exact and_congr_right fun _ => ih

/-- Two conditions on the steps together. -/
theorem stepsMeet_and {C D : σ → ι → Prop} {inputs : List ι} {s : σ} :
    StepsMeet step (fun s i => C s i ∧ D s i) s inputs ↔ StepsMeet step C s inputs ∧ StepsMeet step D s inputs := by
  induction inputs generalizing s with
  | nil => exact (and_self_iff (a := True)).symm
  | cons i inputs ih => exact (and_congr_right fun _ => ih).trans and_and_and_comm

/-- A condition on the inputs alone can be put beside one on the steps. -/
theorem StepsMeet.and {C : σ → ι → Prop} {P : ι → Prop} {inputs : List ι} {s : σ} (hP : ∀ i ∈ inputs, P i)
    (h : StepsMeet step C s inputs) : StepsMeet step (fun s i => P i ∧ C s i) s inputs :=
  stepsMeet_and.mpr ⟨stepsMeet_forall_iff.mpr hP, h⟩

/-- Two conditions that agree under an invariant which they keep are met by the same runs. -/
theorem stepsMeet_iff (Inv : σ → Prop) {C D : σ → ι → Prop} (hiff : ∀ s i, Inv s → (C s i ↔ D s i))
    (hstep : ∀ s i, Inv s → D s i → Inv (step s i)) {inputs : List ι} {s : σ} (hinv : Inv s) :
    StepsMeet step C s inputs ↔ StepsMeet step D s inputs := by
  induction inputs generalizing s with
  | nil => exact Iff.rfl
  | cons i inputs ih =>
    refine (and_congr_left fun _ => hiff s i hinv).trans (and_congr_right fun hmeet => ?_)
    exact ih (hstep s i hinv hmeet)

/-- The same among the runs whose steps are in a domain. -/
theorem stepsMeet_iff_within (Inv : σ → Prop) {C D Dom : σ → ι → Prop}
    (hiff : ∀ s i, Inv s → Dom s i → (C s i ↔ D s i)) (hstep : ∀ s i, Inv s → Dom s i → D s i → Inv (step s i))
    {inputs : List ι} {s : σ} (hinv : Inv s) (hdom : StepsMeet step Dom s inputs) :
    StepsMeet step C s inputs ↔ StepsMeet step D s inputs := by
  have hboth : StepsMeet step (fun s i => Dom s i ∧ C s i) s inputs ↔
      StepsMeet step (fun s i => Dom s i ∧ D s i) s inputs :=
    stepsMeet_iff Inv (fun s i h => and_congr_right (hiff s i h)) (fun s i h hd => hstep s i h hd.1 hd.2) hinv
  rwa [stepsMeet_and, stepsMeet_and, and_iff_right hdom, and_iff_right hdom] at hboth

/-! ### Two systems side by side -/

/-- What the steps of a run give out. -/
def outputs {ω : Type*} (step : σ → ι → σ) (out : σ → ι → ω) (s : σ) : List ι → List ω
  | [] => []
  | i :: inputs => out s i :: outputs step out (step s i) inputs

/-- Related states that give out the same and stay related step by step do so in whole runs. -/
theorem outputs_eq_of_related {τ ω : Type*} {step' : τ → ι → τ} {out : σ → ι → ω} {out' : τ → ι → ω} (R : σ → τ → Prop)
    (hstep : ∀ s t i, R s t → out s i = out' t i ∧ R (step s i) (step' t i)) (inputs : List ι) {s : σ} {t : τ} (h : R s t) :
    outputs step out s inputs = outputs step' out' t inputs ∧ R (run step s inputs) (run step' t inputs) := by
  induction inputs generalizing s t with
  | nil => exact ⟨rfl, h⟩
  | cons i inputs ih =>
    obtain ⟨hout, hnext⟩ := hstep s t i h
    obtain ⟨houts, hlast⟩ := ih hnext
    exact ⟨congrArg₂ List.cons hout houts, hlast⟩

/-- Conditions that agree on related states are met by the same runs. -/
theorem stepsMeet_iff_of_related {τ : Type*} {step' : τ → ι → τ} {C : σ → ι → Prop} {D : τ → ι → Prop} (R : σ → τ → Prop)
    (hstep : ∀ s t i, R s t → (C s i ↔ D t i) ∧ R (step s i) (step' t i)) {inputs : List ι} {s : σ} {t : τ} (h : R s t) :
    StepsMeet step C s inputs ↔ StepsMeet step' D t inputs := by
  induction inputs generalizing s t with
  | nil => exact Iff.rfl
  | cons i inputs ih =>
    obtain ⟨hiff, hnext⟩ := hstep s t i h
    exact and_congr hiff (ih hnext)

end MetaEditor.Lib
