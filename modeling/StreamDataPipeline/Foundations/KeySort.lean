/- Sorting by a key. -/

import Mathlib.Data.List.Sort

set_option autoImplicit false
set_option relaxedAutoImplicit false

namespace StreamDataPipeline.Foundations.KeySort

universe u v

variable {α : Type u} {κ : Type v} [LinearOrder κ] (key : α → κ)

/-- A stable sort: items of one key keep their order. -/
def sortBy (xs : List α) : List α := xs.insertionSort fun x y => key x ≤ key y

theorem sortBy_perm (xs : List α) : (sortBy key xs).Perm xs :=
  List.perm_insertionSort _ xs

private theorem key_total : Std.Total fun x y : α => key x ≤ key y :=
  ⟨fun x y => le_total (key x) (key y)⟩

private theorem key_trans : IsTrans α fun x y => key x ≤ key y :=
  ⟨fun _ _ _ => le_trans⟩

theorem sortBy_ordered (xs : List α) : (sortBy key xs).Pairwise fun x y => key x ≤ key y :=
  have := key_total key
  have := key_trans key
  List.pairwise_insertionSort _ xs

variable {key}

/-- A list whose keys rise is what all its rearrangements are sorted into. -/
theorem sortBy_eq {xs ys : List α} (perm : xs.Perm ys)
    (rises : ys.Pairwise fun x y => key x < key y) : sortBy key xs = ys := by
  apply List.Perm.eq_of_pairwise ?_ (sortBy_ordered key xs) (rises.imp le_of_lt)
    ((sortBy_perm key xs).trans perm)
  intro x y here there below above
  have member : x ∈ ys := ((sortBy_perm key xs).trans perm).mem_iff.mp here
  have distinct : (ys.map key).Nodup := List.pairwise_map.mpr (rises.imp fun less => less.ne)
  exact List.inj_on_of_nodup_map distinct member there (le_antisymm below above)

end StreamDataPipeline.Foundations.KeySort
