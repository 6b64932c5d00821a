/- Runs of a machine that takes the steps of a schedule, and guards on their steps. -/

import Mathlib.Data.List.Basic

set_option autoImplicit false
set_option relaxedAutoImplicit false

namespace StreamDataPipeline.Foundations.Schedule

universe u v

variable {σ : Type u} {ι : Type v} (step : σ → ι → Option σ) (guard : σ → ι → Prop)

/-- The state after the steps of the schedule; `none` if one of them cannot be taken. -/
def run (s : σ) (schedule : List ι) : Option σ := schedule.foldlM step s

theorem run_cons {s s' : σ} {i : ι} (stepped : step s i = some s') (rest : List ι) :
    run step s (i :: rest) = run step s' rest := by
  rw [run, List.foldlM_cons, stepped]
  rfl

theorem run_append (s : σ) (first second : List ι) :
    run step s (first ++ second) = (run step s first).bind fun s' => run step s' second :=
  List.foldlM_append

/-- Every step of the schedule is taken in a state that meets the guard. -/
def Guarded : σ → List ι → Prop
  | _, [] => True
  | s, i :: rest => guard s i ∧ match step s i with
    | some s' => Guarded s' rest
    | none => True

instance decidableGuarded [∀ s i, Decidable (guard s i)] :
    (s : σ) → (schedule : List ι) → Decidable (Guarded step guard s schedule)
  | _, [] => isTrue trivial
  | s, i :: rest =>
      have _later : Decidable (match step s i with
          | some s' => Guarded step guard s' rest
          | none => True) :=
        match step s i with
        | some s' => decidableGuarded s' rest
        | none => isTrue trivial
      inferInstanceAs (Decidable (_ ∧ _))

/-- What every guarded step preserves holds after every guarded run. -/
theorem run_invariant (Inv : σ → Prop)
    (preserved : ∀ {s i s'}, Inv s → guard s i → step s i = some s' → Inv s') {s s' : σ}
    {schedule : List ι} (start : Inv s) (guarded : Guarded step guard s schedule)
    (ran : run step s schedule = some s') : Inv s' := by
  induction schedule generalizing s with
  | nil =>
      cases ran
      exact start
  | cons i rest ih =>
      obtain ⟨next, stepped, later⟩ := Option.bind_eq_some_iff.mp ran
      obtain ⟨here, afterwards⟩ := guarded
      rw [stepped] at afterwards
      exact ih (preserved start here stepped) afterwards later

theorem run_preserves {step : σ → ι → Option σ} (Inv : σ → Prop)
    (preserved : ∀ {s i s'}, Inv s → step s i = some s' → Inv s') {s s' : σ} {schedule : List ι}
    (start : Inv s) (ran : run step s schedule = some s') : Inv s' := by
  induction schedule generalizing s with
  | nil =>
      cases ran
      exact start
  | cons i rest ih =>
      obtain ⟨next, stepped, later⟩ := Option.bind_eq_some_iff.mp ran
      exact ih (preserved start stepped) later

/-- A run is no longer than the measure that each of its steps lowers. -/
theorem length_le_of_decreasing {step : σ → ι → Option σ} (measure : σ → Nat)
    (decreases : ∀ {s i s'}, step s i = some s' → measure s' < measure s) {s s' : σ}
    {schedule : List ι} (ran : run step s schedule = some s') :
    schedule.length + measure s' ≤ measure s := by
  induction schedule generalizing s with
  | nil =>
      cases ran
      exact Nat.le_of_eq (Nat.zero_add _)
  | cons i rest ih =>
      obtain ⟨next, stepped, later⟩ := Option.bind_eq_some_iff.mp ran
      have first := decreases stepped
      have others := ih later
      rw [List.length_cons]
      omega

end StreamDataPipeline.Foundations.Schedule
