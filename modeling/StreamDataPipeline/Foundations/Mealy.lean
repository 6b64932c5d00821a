/- Runs of a deterministic machine that answers every input with one output. -/

import Mathlib.Data.List.Basic
import Mathlib.Order.Basic

/-!
`run` keeps the whole list of outputs. Three rules carry a fact about one step to
a run of any length: an invariant of the state, the conservation of a sequence
that is taken in, held by the state and given out, and the strict rise of stamps
that a bound kept in the state separates. `Along` states a condition of every step
of a run, and two rules compare such conditions under an invariant.
-/

set_option autoImplicit false
set_option relaxedAutoImplicit false

namespace StreamDataPipeline.Foundations.Mealy

universe u v w x

variable {σ : Type u} {ι : Type v} {ο : Type w} {α : Type x} (step : σ → ι → σ × ο)

/-- Feed the inputs one after another, keeping the output of every step. -/
def run : σ → List ι → σ × List ο
  | s, [] => (s, [])
  | s, i :: is => ((run (step s i).1 is).1, (step s i).2 :: (run (step s i).1 is).2)

@[simp] theorem run_nil (s : σ) : run step s [] = (s, []) := rfl

theorem run_cons (s : σ) (i : ι) (is : List ι) :
    run step s (i :: is) =
      ((run step (step s i).1 is).1, (step s i).2 :: (run step (step s i).1 is).2) := rfl

theorem run_append (s : σ) (is js : List ι) :
    run step s (is ++ js) =
      ((run step (run step s is).1 js).1,
        (run step s is).2 ++ (run step (run step s is).1 js).2) := by
  induction is generalizing s with
  | nil => rfl
  | cons i is ih => simp only [List.cons_append, run_cons, ih]

theorem length_run (s : σ) (is : List ι) : (run step s is).2.length = is.length := by
  induction is generalizing s with
  | nil => rfl
  | cons i is ih => rw [run_cons, List.length_cons, List.length_cons, ih]

/-- An invariant that every allowed input preserves holds after every allowed run. -/
theorem run_invariant (Inv : σ → Prop) (Allowed : ι → Prop)
    (preserved : ∀ s i, Inv s → Allowed i → Inv (step s i).1)
    (s : σ) (is : List ι) (start : Inv s) (allowed : ∀ i ∈ is, Allowed i) :
    Inv (run step s is).1 := by
  induction is generalizing s with
  | nil => exact start
  | cons i is ih =>
      have first := preserved s i start (allowed i List.mem_cons_self)
      exact ih _ first fun j hj => allowed j (List.mem_cons_of_mem i hj)

/-- If every step only moves a sequence along, from what it takes in through what
the state holds to what it gives out, then so does every run. -/
theorem run_conserves (Inv : σ → Prop) (Allowed : ι → Prop)
    (held : σ → List α) (taken : ι × ο → List α) (given : ο → List α)
    (preserved : ∀ s i, Inv s → Allowed i → Inv (step s i).1)
    (conserved : ∀ s i, Inv s → Allowed i →
      held s ++ taken (i, (step s i).2) = given (step s i).2 ++ held (step s i).1)
    (s : σ) (is : List ι) (start : Inv s) (allowed : ∀ i ∈ is, Allowed i) :
    held s ++ (is.zip (run step s is).2).flatMap taken =
      (run step s is).2.flatMap given ++ held (run step s is).1 := by
  induction is generalizing s with
  | nil => simp
  | cons i is ih =>
      have here := allowed i List.mem_cons_self
      have rest := ih (step s i).1 (preserved s i start here)
        fun j hj => allowed j (List.mem_cons_of_mem i hj)
      simp only [run_cons, List.zip_cons_cons, List.flatMap_cons]
      rw [← List.append_assoc, conserved s i start here, List.append_assoc, rest,
        List.append_assoc]

/-- If every step stamps its answer at or above a bound of the state and leaves a
bound above the stamp, then the stamps of a run rise strictly. -/
theorem run_stamps_rise {β : Type x} [Preorder β] (Allowed : ι → Prop) (Quiet : ι × ο → Prop)
    (low : σ → β) (stamps : ι × ο → List β)
    (rises : ∀ s i, Allowed i → Quiet (i, (step s i).2) → low s ≤ low (step s i).1 ∧
      (stamps (i, (step s i).2)).Pairwise (· < ·) ∧
      ∀ n ∈ stamps (i, (step s i).2), low s ≤ n ∧ n < low (step s i).1)
    (s : σ) (is : List ι) (allowed : ∀ i ∈ is, Allowed i)
    (quiet : ∀ p ∈ is.zip (run step s is).2, Quiet p) :
    ((is.zip (run step s is).2).flatMap stamps).Pairwise (· < ·) ∧
      ∀ n ∈ (is.zip (run step s is).2).flatMap stamps, low s ≤ n := by
  induction is generalizing s with
  | nil => simp
  | cons i is ih =>
      obtain ⟨grows, sorted, between⟩ :=
        rises s i (allowed i List.mem_cons_self) (quiet _ List.mem_cons_self)
      obtain ⟨tailSorted, tailAbove⟩ := ih (step s i).1
        (fun j hj => allowed j (List.mem_cons_of_mem i hj))
        (fun p hp => quiet p (List.mem_cons_of_mem _ hp))
      simp only [run_cons, List.zip_cons_cons, List.flatMap_cons]
      refine ⟨List.pairwise_append.mpr ⟨sorted, tailSorted, ?_⟩, ?_⟩
      · intro a ha b hb
        exact lt_of_lt_of_le (between a ha).2 (tailAbove b hb)
      · intro n hn
        rcases List.mem_append.mp hn with here | later
        · exact (between n here).1
        · exact grows.trans (tailAbove n later)

/-- Every step of the run is taken in a state, and on an input, that meet the condition. -/
def Along (P : σ → ι → Prop) : σ → List ι → Prop
  | _, [] => True
  | s, i :: is => P s i ∧ Along P (step s i).1 is

instance decidableAlong (P : σ → ι → Prop) [∀ s i, Decidable (P s i)] :
    (s : σ) → (is : List ι) → Decidable (Along step P s is)
  | _, [] => isTrue trivial
  | s, i :: is =>
      have _later : Decidable (Along step P (step s i).1 is) := decidableAlong P _ is
      inferInstanceAs (Decidable (_ ∧ _))

/-- What a step with the condition does from a state with the invariant, it does along
every run whose steps all have the condition. -/
theorem along_of_along {P : σ → ι → Prop} (Q : σ → ι → Prop) (Inv : σ → Prop)
    (preserved : ∀ s i, Inv s → P s i → Q s i ∧ Inv (step s i).1)
    {s : σ} {is : List ι} (start : Inv s) (along : Along step P s is) :
    Along step Q s is ∧ Inv (run step s is).1 := by
  induction is generalizing s with
  | nil => exact ⟨trivial, start⟩
  | cons i is ih =>
      obtain ⟨here, kept⟩ := preserved s i start along.1
      obtain ⟨later, last⟩ := ih kept along.2
      exact ⟨⟨here, later⟩, last⟩

theorem along_iff_along {P Q : σ → ι → Prop} (Inv : σ → Prop) (Allowed : ι → Prop)
    (agree : ∀ s i, Inv s → Allowed i → (Q s i ↔ P s i))
    (preserved : ∀ s i, Inv s → Allowed i → P s i → Inv (step s i).1)
    {s : σ} {is : List ι} (start : Inv s) (allowed : ∀ i ∈ is, Allowed i) :
    Along step Q s is ↔ Along step P s is := by
  induction is generalizing s with
  | nil => exact Iff.rfl
  | cons i is ih =>
      have here := allowed i List.mem_cons_self
      have same := agree s i start here
      have later := fun h =>
        ih (preserved s i start here h) fun j hj => allowed j (List.mem_cons_of_mem i hj)
      constructor
      · rintro ⟨first, rest⟩
        exact ⟨same.mp first, (later (same.mp first)).mp rest⟩
      · rintro ⟨first, rest⟩
        exact ⟨same.mpr first, (later first).mpr rest⟩

theorem along_of_invariant {Q : σ → ι → Prop} (Inv : σ → Prop) (Allowed : ι → Prop)
    (holds : ∀ s i, Inv s → Allowed i → Q s i)
    (preserved : ∀ s i, Inv s → Allowed i → Inv (step s i).1)
    {s : σ} {is : List ι} (start : Inv s) (allowed : ∀ i ∈ is, Allowed i) :
    Along step Q s is := by
  induction is generalizing s with
  | nil => exact trivial
  | cons i is ih =>
      have here := allowed i List.mem_cons_self
      exact ⟨holds s i start here,
        ih (preserved s i start here) fun j hj => allowed j (List.mem_cons_of_mem i hj)⟩

theorem along_outputs (Q : ο → Prop) (s : σ) (is : List ι) :
    Along step (fun s i => Q (step s i).2) s is ↔ ∀ o ∈ (run step s is).2, Q o := by
  induction is generalizing s with
  | nil => simp [Along]
  | cons i is ih =>
      rw [Along, ih, run_cons, List.forall_mem_cons]

end StreamDataPipeline.Foundations.Mealy
