/- The numbers of type `double`. -/

import Mathlib.Data.Rat.Floor
import StreamDataPipeline.Foundations.FloatingPoint

set_option autoImplicit false
set_option relaxedAutoImplicit false

namespace StreamDataPipeline.Foundations.Doubles

open FloatingPoint

/-- The finite values of type `double`. -/
def IsDouble (x : ℚ) : Prop := Representable 53 (-1074) x ∧ |x| < 2 ^ 1024

/-- The nearest double, with ties to even. An infinity is written as the power of two behind
the greatest double. -/
def nearestDouble (q : ℚ) : ℚ := max (-2 ^ 1024) (min (2 ^ 1024) (nearest 53 (-1074) q))

theorem nearestDouble_mono : Monotone nearestDouble := by
  intro q r le
  exact max_le_max le_rfl (min_le_min le_rfl (nearest_mono (by decide) le))

theorem nearestDouble_eq {q : ℚ} (finite : |nearest 53 (-1074) q| ≤ 2 ^ 1024) :
    nearestDouble q = nearest 53 (-1074) q := by
  obtain ⟨low, high⟩ := abs_le.mp finite
  rw [nearestDouble, min_eq_right high, max_eq_right low]

theorem nearestDouble_eq_of_finite {q : ℚ} (finite : |nearestDouble q| < 2 ^ 1024) :
    nearestDouble q = nearest 53 (-1074) q := by
  obtain ⟨low, high⟩ := abs_lt.mp finite
  rw [nearestDouble] at low high ⊢
  have below : nearest 53 (-1074) q < 2 ^ 1024 := by
    rcases min_lt_iff.mp (max_lt_iff.mp high).2 with absurdity | less
    · exact absurd absurdity (lt_irrefl _)
    · exact less
  rw [min_eq_right below.le] at low ⊢
  rcases lt_max_iff.mp low with absurdity | above
  · exact absurd absurdity (lt_irrefl _)
  · exact max_eq_right above.le

theorem nearestDouble_nearest {q : ℚ} (finite : |nearestDouble q| < 2 ^ 1024) :
    IsDouble (nearestDouble q) ∧ ∀ y, IsDouble y → |q - nearestDouble q| ≤ |q - y| := by
  have same := nearestDouble_eq_of_finite finite
  rw [same] at finite ⊢
  have digits : 1 ≤ 53 := by decide
  refine ⟨⟨nearest_representable digits q, finite⟩, ?_⟩
  rintro y ⟨rep, -⟩
  exact abs_sub_nearest_le_of_representable digits q rep

theorem nearest_intCast {n : ℤ} (small : |n| < 2 ^ 53) : nearest 53 (-1074) (n : ℚ) = n :=
  nearest_of_representable ⟨n, 0, by decide, small, by rw [zpow_zero, mul_one]⟩

theorem nearestDouble_intCast (n : ℤ) (small : |n| ≤ 2 ^ 53) : nearestDouble n = n := by
  have exact_double : nearest 53 (-1074) (n : ℚ) = n := by
    rcases small.lt_or_eq with less | full
    · exact nearest_intCast less
    · -- the limit itself has a significand of one digit
      obtain ⟨sign, unit, rfl⟩ : ∃ sign : ℤ, |sign| = 1 ∧ n = sign * 2 ^ 53 := by
        rcases (abs_eq (by decide)).mp full with up | down
        · exact ⟨1, rfl, by rw [up, one_mul]⟩
        · exact ⟨-1, rfl, by rw [down, neg_one_mul]⟩
      refine nearest_of_representable ⟨sign, 53, by decide, by rw [unit]; decide, ?_⟩
      push_cast
      rfl
  rw [nearestDouble_eq, exact_double]
  rw [exact_double]
  have bound : (|n| : ℚ) ≤ 2 ^ 53 := by exact_mod_cast small
  exact bound.trans (pow_le_pow_right₀ one_le_two (by decide))

theorem nearestDouble_zero : nearestDouble 0 = 0 := by
  exact_mod_cast nearestDouble_intCast 0 (by decide)

theorem nearestDouble_eq_self_iff {q : ℚ} (finite : |q| < 2 ^ 1024) :
    nearestDouble q = q ↔ IsDouble q := by
  constructor
  · intro kept
    have double := (nearestDouble_nearest (q := q) (by rwa [kept])).1
    rwa [kept] at double
  · rintro ⟨rep, -⟩
    have kept := nearest_of_representable rep
    rw [nearestDouble_eq, kept]
    rw [kept]
    exact finite.le

theorem isDouble_intCast (n : ℤ) (small : |n| ≤ 2 ^ 53) : IsDouble n := by
  have bound : |(n : ℚ)| ≤ 2 ^ 53 := by exact_mod_cast small
  have finite : |(n : ℚ)| < 2 ^ 1024 :=
    bound.trans_lt (pow_lt_pow_right₀ one_lt_two (by decide))
  exact (nearestDouble_eq_self_iff finite).mp (nearestDouble_intCast n small)

theorem nearestDouble_integer {q : ℚ} (large : 2 ^ 53 ≤ |q|) : ∃ n : ℤ, nearestDouble q = n := by
  obtain ⟨n, rounded⟩ : ∃ n : ℤ, nearest 53 (-1074) q = n := exists_nearest_eq_intCast large
  refine ⟨max (-2 ^ 1024) (min (2 ^ 1024) n), ?_⟩
  rw [nearestDouble, rounded, Int.cast_max, Int.cast_min, Int.cast_neg, Int.cast_pow,
    Int.cast_ofNat]

end StreamDataPipeline.Foundations.Doubles
