/- The elements of a list that exceed everything in front of them. -/

import Mathlib.Data.List.Sort

set_option autoImplicit false
set_option relaxedAutoImplicit false

namespace StreamDataPipeline.Foundations.RunningMaxima

universe u

variable {α : Type u} (key : α → Nat)

/-- Keep an element whose key is not below the bound, and go on above it. -/
def above : Nat → List α → List α
  | _, [] => []
  | low, x :: xs => if key x < low then above low xs else x :: above (key x + 1) xs

/-- The strict running maxima. -/
def maxima (xs : List α) : List α := above key 0 xs

variable {key}

theorem above_sublist (low : Nat) (xs : List α) : (above key low xs).Sublist xs := by
  induction xs generalizing low with
  | nil => exact .slnil
  | cons x xs ih =>
      rw [above]
      split_ifs
      · exact (ih low).cons x
      · exact (ih (key x + 1)).cons_cons x

theorem above_map {β : Type u} (f : β → α) (low : Nat) (xs : List β) :
    above key low (xs.map f) = (above (fun x => key (f x)) low xs).map f := by
  induction xs generalizing low with
  | nil => rfl
  | cons x xs ih =>
      rw [List.map_cons, above, above]
      split_ifs
      · exact ih low
      · rw [List.map_cons, ih]

theorem above_rises (low : Nat) (xs : List α) :
    (above key low xs).Pairwise (fun x y => key x < key y) ∧
      ∀ x ∈ above key low xs, low ≤ key x := by
  induction xs generalizing low with
  | nil => simp [above]
  | cons x xs ih =>
      rw [above]
      split_ifs with below
      · exact ih low
      · obtain ⟨rises, bound⟩ := ih (key x + 1)
        refine ⟨List.pairwise_cons.mpr ⟨fun y mem => bound y mem, rises⟩, ?_⟩
        intro y mem
        rcases List.mem_cons.mp mem with rfl | later
        · omega
        · have higher := bound y later
          omega

theorem mem_above {low : Nat} {xs : List α} {x : α} :
    x ∈ above key low xs ↔ ∃ before after, xs = before ++ x :: after ∧ low ≤ key x ∧
      ∀ y ∈ before, key y < key x := by
  induction xs generalizing low with
  | nil => simp [above]
  | cons z xs ih =>
      rw [above]
      constructor
      · intro mem
        split_ifs at mem with below
        · obtain ⟨before, after, rfl, bound, smaller⟩ := ih.mp mem
          refine ⟨z :: before, after, rfl, bound, List.forall_mem_cons.mpr ⟨?_, smaller⟩⟩
          omega
        · rcases List.mem_cons.mp mem with rfl | later
          · exact ⟨[], xs, rfl, by omega, by simp⟩
          · obtain ⟨before, after, rfl, bound, smaller⟩ := ih.mp later
            refine ⟨z :: before, after, rfl, by omega, List.forall_mem_cons.mpr ⟨?_, smaller⟩⟩
            omega
      · rintro ⟨before, after, split, bound, smaller⟩
        cases before with
        | nil =>
            obtain ⟨rfl, rfl⟩ := List.cons.inj split
            rw [if_neg (by omega)]
            exact List.mem_cons_self
        | cons y before =>
            obtain ⟨rfl, rfl⟩ := List.cons.inj split
            obtain ⟨first, rest⟩ := List.forall_mem_cons.mp smaller
            split_ifs
            · exact ih.mpr ⟨before, after, rfl, bound, rest⟩
            · exact List.mem_cons_of_mem _ (ih.mpr ⟨before, after, rfl, first, rest⟩)

theorem mem_maxima {xs : List α} {x : α} :
    x ∈ maxima key xs ↔ ∃ before after, xs = before ++ x :: after ∧
      ∀ y ∈ before, key y < key x := by
  rw [maxima, mem_above]
  simp

instance key_antisymm (key : α → Nat) : Std.Antisymm fun x y => key x < key y :=
  ⟨fun _ _ below above => absurd below (Nat.lt_asymm above)⟩

instance key_irrefl (key : α → Nat) : Std.Irrefl fun x y => key x < key y :=
  ⟨fun x => Nat.lt_irrefl (key x)⟩

section Copies

variable {xs sent : List α} (rises : sent.Pairwise fun x y => key x < key y)
  (copies : ∀ x ∈ xs, x ∈ sent)

include rises copies

theorem maxima_sublist : (maxima key xs).Sublist sent := by
  have own := (above_rises 0 xs : (above key 0 xs).Pairwise _ ∧ _).1
  have inside : maxima key xs ⊆ sent := fun x mem => copies x ((above_sublist 0 xs).subset mem)
  exact List.sublist_of_subperm_of_pairwise (List.subperm_of_subset own.nodup inside) own rises

/-- They are the whole of it exactly when every element comes before all larger ones. -/
theorem maxima_eq_iff :
    maxima key xs = sent ↔ ∀ x ∈ sent, ∃ before after, xs = before ++ x :: after ∧
      ∀ y ∈ before, key y < key x := by
  simp only [← mem_maxima]
  constructor
  · intro whole x mem
    rwa [whole]
  · intro all
    exact (above_rises 0 xs).1.eq_of_mem_iff rises fun x =>
      ⟨fun mem => copies x ((above_sublist 0 xs).subset mem), all x⟩

end Copies

end StreamDataPipeline.Foundations.RunningMaxima
