/- Rounding to the nearest number of a binary floating-point format. -/

import Mathlib.Algebra.Order.Round
import Mathlib.Data.Int.Log
import Mathlib.Order.Monotone.Odd
import Mathlib.Tactic.FieldSimp
import Mathlib.Tactic.Linarith
import Mathlib.Tactic.Positivity
import Mathlib.Tactic.Ring

/-!
A format has a number of significand digits and a least exponent; there is no greatest one.
A number is rounded on the grid of its own binade, with ties to the even multiple.
-/

set_option autoImplicit false
set_option relaxedAutoImplicit false

namespace StreamDataPipeline.Foundations.FloatingPoint

universe u

variable {K : Type u} [Field K] [LinearOrder K]

/-- The integer is nearest, and even if another one is as near. -/
def NearestInt (x : K) (n : ℤ) : Prop := |x - n| < 1 / 2 ∨ (|x - n| = 1 / 2 ∧ Even n)

theorem NearestInt.abs_sub_le {x : K} {n : ℤ} (h : NearestInt x n) : |x - n| ≤ 1 / 2 := by
  rcases h with less | ⟨tie, -⟩
  · exact less.le
  · exact tie.le

theorem NearestInt.neg {x : K} {n : ℤ} (h : NearestInt x n) : NearestInt (-x) (-n) := by
  have mirror : |-x - ((-n : ℤ) : K)| = |x - n| := by
    rw [Int.cast_neg, neg_sub_neg, abs_sub_comm]
  rwa [NearestInt, mirror, even_neg]

variable [IsStrictOrderedRing K]

theorem NearestInt.unique {x : K} {m n : ℤ} (hm : NearestInt x m) (hn : NearestInt x n) :
    m = n := by
  by_contra differ
  wlog less : m < n generalizing m n
  · exact this hn hm (Ne.symm differ) (lt_of_le_of_ne (not_lt.mp less) (Ne.symm differ))
  have apart : (m : K) + 1 ≤ n := by exact_mod_cast less
  have left := (abs_le.mp hm.abs_sub_le).2
  have right := (abs_le.mp hn.abs_sub_le).1
  have next : n = m + 1 := by
    have : (n : K) = (m + 1 : ℤ) := by
      push_cast
      linarith
    exact_mod_cast this
  subst next
  push_cast at right
  have tie : x - m = 1 / 2 := by linarith
  have even : ∀ k : ℤ, |x - k| = 1 / 2 → NearestInt x k → Even k := by
    rintro k half (less | ⟨-, even⟩)
    · exact absurd half less.ne
    · exact even
  have evenLow : Even m := even m (by rw [tie, abs_of_pos one_half_pos]) hm
  have evenHigh : Even (m + 1) := by
    refine even (m + 1) ?_ hn
    rw [Int.cast_add, Int.cast_one, ← sub_sub, tie, abs_of_neg (by norm_num)]
    norm_num
  exact Int.not_even_iff_odd.mpr evenLow.add_one evenHigh

theorem NearestInt.intCast (n : ℤ) : NearestInt (n : K) n := by
  left
  rw [sub_self, abs_zero]
  exact one_half_pos

variable [FloorRing K]

/-- The nearest integer, and the even one of two. -/
def nearestEven (x : K) : ℤ :=
  if Int.fract x < 1 / 2 then ⌊x⌋
  else if 1 / 2 < Int.fract x then ⌊x⌋ + 1
  else if Even ⌊x⌋ then ⌊x⌋ else ⌊x⌋ + 1

theorem nearestEven_spec (x : K) : NearestInt x (nearestEven x) := by
  have nonneg := Int.fract_nonneg x
  have small := Int.fract_lt_one x
  have below : x - (⌊x⌋ : ℤ) = Int.fract x := rfl
  have above : x - ((⌊x⌋ + 1 : ℤ) : K) = -(1 - Int.fract x) := by
    rw [Int.cast_add, Int.cast_one, ← below]
    ring
  rw [nearestEven]
  split_ifs with down up even
  · left
    rw [below, abs_of_nonneg nonneg]
    exact down
  · left
    rw [above, abs_neg, abs_of_pos (by linarith)]
    linarith
  · right
    rw [below, abs_of_nonneg nonneg]
    exact ⟨by linarith, even⟩
  · right
    rw [above, abs_neg, abs_of_pos (by linarith)]
    exact ⟨by linarith, (Int.not_even_iff_odd.mp even).add_one⟩

theorem nearestEven_eq {x : K} {n : ℤ} (h : NearestInt x n) : nearestEven x = n :=
  (nearestEven_spec x).unique h

theorem nearestEven_neg (x : K) : nearestEven (-x) = -nearestEven x :=
  nearestEven_eq (nearestEven_spec x).neg

theorem abs_sub_nearestEven_le (x : K) (n : ℤ) : |x - nearestEven x| ≤ |x - n| := by
  by_cases same : nearestEven x = n
  · rw [same]
  · have apart : (1 : K) ≤ |(nearestEven x - n : ℤ)| := by
      exact_mod_cast Int.one_le_abs (sub_ne_zero.mpr same)
    have near := (nearestEven_spec x).abs_sub_le
    have triangle := abs_sub_le (nearestEven x : K) x n
    rw [abs_sub_comm _ x] at triangle
    push_cast at apart
    linarith

theorem nearestEven_intCast (n : ℤ) : nearestEven (n : K) = n := nearestEven_eq (.intCast n)

theorem nearestEven_mono {x y : K} (le : x ≤ y) : nearestEven x ≤ nearestEven y := by
  by_contra out
  rw [not_le] at out
  have apart : (nearestEven y : K) + 1 ≤ nearestEven x := by exact_mod_cast out
  have left := (abs_le.mp (nearestEven_spec x).abs_sub_le).1
  have right := (abs_le.mp (nearestEven_spec y).abs_sub_le).2
  have same : x = y := by linarith
  exact out.ne (by rw [same])

section Format

-- the number of significand digits and the least exponent
variable (p : ℕ) (emin : ℤ)

/-- The exponent of the grid on which a number is rounded. -/
def gridExp (q : K) : ℤ := max (Int.log 2 |q| + 1 - p) emin

def grid (q : K) : K := 2 ^ gridExp p emin q

/-- The nearest number of the format. -/
def nearest (q : K) : K := nearestEven (q / grid p emin q) * grid p emin q

def Representable (x : K) : Prop := ∃ m e : ℤ, emin ≤ e ∧ |m| < 2 ^ p ∧ x = m * 2 ^ e

variable {p emin} {q : K}

theorem grid_pos : 0 < grid p emin q := zpow_pos two_pos _

theorem nearest_neg (q : K) : nearest p emin (-q) = -nearest p emin q := by
  have same : gridExp p emin (-q) = gridExp p emin q := by rw [gridExp, gridExp, abs_neg]
  rw [nearest, nearest, grid, grid, same, neg_div, nearestEven_neg, Int.cast_neg, neg_mul]

theorem gridExp_le {e : ℤ} (least : emin ≤ e) (nonzero : q ≠ 0)
    (small : |q| < 2 ^ (e + p)) : gridExp p emin q ≤ e := by
  have log : Int.log 2 |q| < e + p := by
    rw [← Int.lt_zpow_iff_log_lt one_lt_two (abs_pos.mpr nonzero)]
    exact_mod_cast small
  exact max_le (by omega) least

theorem gridExp_mono {r : K} (nonzero : q ≠ 0) (le : |q| ≤ |r|) :
    gridExp p emin q ≤ gridExp p emin r := by
  have log := Int.log_mono_right (b := 2) (abs_pos.mpr nonzero) le
  exact max_le_max (by omega) le_rfl

theorem le_abs_of_emin_lt (nonzero : q ≠ 0) (above : emin < gridExp p emin q) :
    2 ^ (gridExp p emin q + p - 1) ≤ |q| := by
  have log : gridExp p emin q + p - 1 = Int.log 2 |q| := by
    rw [gridExp] at above ⊢
    omega
  rw [log]
  exact_mod_cast Int.zpow_log_le_self one_lt_two (abs_pos.mpr nonzero)

theorem abs_lt_two_zpow (q : K) : |q| < 2 ^ (gridExp p emin q + p) := by
  have log : Int.log 2 |q| + 1 ≤ gridExp p emin q + p := by
    have := le_max_left (Int.log 2 |q| + 1 - p) emin
    rw [gridExp]
    omega
  have self := Int.lt_zpow_succ_log_self one_lt_two |q|
  exact lt_of_lt_of_le (by exact_mod_cast self) (zpow_le_zpow_right₀ one_le_two log)

theorem exists_multiple {e : ℤ} (coarse : gridExp p emin q ≤ e) (m : ℤ) :
    ∃ j : ℤ, (m * 2 ^ e : K) = j * grid p emin q := by
  obtain ⟨k, rfl⟩ := Int.le.dest coarse
  have two : (2 : K) ≠ 0 := (two_pos : (0 : K) < 2).ne'
  refine ⟨m * 2 ^ k, ?_⟩
  rw [grid, zpow_add₀ two, zpow_natCast]
  push_cast
  ring

section Multiple

variable {j : ℤ}

theorem nearest_le (le : q ≤ j * grid p emin q) : nearest p emin q ≤ j * grid p emin q := by
  have scaled : q / grid p emin q ≤ j := (div_le_iff₀ grid_pos).mpr le
  have rounded := nearestEven_mono scaled
  rw [nearestEven_intCast] at rounded
  exact mul_le_mul_of_nonneg_right (by exact_mod_cast rounded) grid_pos.le

theorem le_nearest (le : j * grid p emin q ≤ q) : j * grid p emin q ≤ nearest p emin q := by
  have scaled : (j : K) ≤ q / grid p emin q := (le_div_iff₀ grid_pos).mpr le
  have rounded := nearestEven_mono scaled
  rw [nearestEven_intCast] at rounded
  exact mul_le_mul_of_nonneg_right (by exact_mod_cast rounded) grid_pos.le

theorem nearest_multiple (multiple : q = j * grid p emin q) : nearest p emin q = q := by
  have low := le_nearest multiple.ge
  have high := nearest_le multiple.le
  rw [← multiple] at low high
  exact le_antisymm high low

private theorem abs_div_grid_sub (q : K) (j : ℤ) :
    |q / grid p emin q - j| = |q - j * grid p emin q| / grid p emin q := by
  have positive : (0 : K) < grid p emin q := grid_pos
  rw [← abs_of_pos positive, ← abs_div, abs_of_pos positive, sub_div,
    mul_div_cancel_right₀ _ positive.ne']

theorem nearest_eq (near : |q - j * grid p emin q| ≤ grid p emin q / 2)
    (tie : |q - j * grid p emin q| = grid p emin q / 2 → Even j) :
    nearest p emin q = j * grid p emin q := by
  have positive : (0 : K) < grid p emin q := grid_pos
  have scaled : NearestInt (q / grid p emin q) j := by
    rw [NearestInt, abs_div_grid_sub]
    rcases near.lt_or_eq with less | equal
    · left
      rw [div_lt_iff₀ positive]
      linarith
    · refine .inr ⟨?_, tie equal⟩
      rw [equal]
      field_simp
  rw [nearest, nearestEven_eq scaled]

theorem abs_sub_nearest_le_multiple (q : K) (j : ℤ) :
    |q - nearest p emin q| ≤ |q - j * grid p emin q| := by
  have near := abs_sub_nearestEven_le (q / grid p emin q) j
  rw [abs_div_grid_sub, abs_div_grid_sub, div_le_div_iff_of_pos_right grid_pos] at near
  exact near

end Multiple

theorem abs_sub_nearest_le (q : K) : |q - nearest p emin q| ≤ grid p emin q / 2 := by
  have near := (nearestEven_spec (q / grid p emin q)).abs_sub_le
  rw [abs_div_grid_sub, div_le_iff₀ grid_pos] at near
  rw [nearest]
  linarith

omit [IsStrictOrderedRing K] in
theorem zero_multiple (q : K) : (0 : K) = (0 : ℤ) * grid p emin q := by
  rw [Int.cast_zero, zero_mul]

theorem nearest_zero : nearest p emin (0 : K) = 0 := nearest_multiple (zero_multiple 0)

theorem nearest_nonneg (nonneg : 0 ≤ q) : 0 ≤ nearest p emin q :=
  (zero_multiple q).trans_le (le_nearest ((zero_multiple q).ge.trans nonneg))

theorem nearest_of_representable (rep : Representable p emin q) : nearest p emin q = q := by
  obtain ⟨m, e, least, small, rfl⟩ := rep
  by_cases nonzero : (m * 2 ^ e : K) = 0
  · rw [nonzero, nearest_zero]
  · have coarse : gridExp p emin (m * 2 ^ e : K) ≤ e := by
      apply gridExp_le least nonzero
      have power : (0 : K) < 2 ^ e := zpow_pos two_pos e
      have digits : |(m : K)| < 2 ^ p := by exact_mod_cast small
      rw [abs_mul, abs_of_pos power, add_comm, zpow_add₀ two_ne_zero, zpow_natCast]
      exact mul_lt_mul_of_pos_right digits power
    obtain ⟨j, multiple⟩ := exists_multiple coarse m
    exact nearest_multiple multiple

/-- In one binade the rounding is monotone, and two binades are parted by a power of two on
the grids of both. -/
theorem nearest_mono (digits : 1 ≤ p) : Monotone (nearest p emin : K → K) := by
  apply monotone_of_odd_of_monotoneOn_nonneg nearest_neg
  intro q qNonneg r rNonneg le
  rw [Set.mem_Ici] at qNonneg rNonneg
  rcases qNonneg.eq_or_lt with rfl | qPos
  · rw [nearest_zero]
    exact nearest_nonneg rNonneg
  have rPos : 0 < r := lt_of_lt_of_le qPos le
  have sizes : |q| ≤ |r| := by rwa [abs_of_pos qPos, abs_of_pos rPos]
  rcases (gridExp_mono qPos.ne' sizes).eq_or_lt with same | less
  · have scaled : q / grid p emin r ≤ r / grid p emin r :=
      div_le_div_of_nonneg_right le grid_pos.le
    have rounded := nearestEven_mono scaled
    rw [nearest, nearest, grid, same]
    exact mul_le_mul_of_nonneg_right (by exact_mod_cast rounded) grid_pos.le
  · have rLow := le_abs_of_emin_lt rPos.ne' (lt_of_le_of_lt (le_max_right _ _) less)
    have qBinade : |q| < 2 ^ (gridExp p emin q + p) := abs_lt_two_zpow q
    have qHigh : |q| < 2 ^ (gridExp p emin r + p - 1) :=
      lt_of_lt_of_le qBinade (zpow_le_zpow_right₀ one_le_two (by omega))
    rw [abs_of_pos rPos] at rLow
    rw [abs_of_pos qPos] at qHigh
    obtain ⟨j, onQ⟩ := exists_multiple
      (show gridExp p emin q ≤ gridExp p emin r + p - 1 by omega) 1
    obtain ⟨k, onR⟩ := exists_multiple
      (show gridExp p emin r ≤ gridExp p emin r + p - 1 by omega) 1
    rw [Int.cast_one, one_mul] at onQ onR
    calc nearest p emin q ≤ j * grid p emin q := nearest_le (onQ ▸ qHigh.le)
      _ = k * grid p emin r := onQ.symm.trans onR
      _ ≤ nearest p emin r := le_nearest (onR ▸ rLow)

theorem nearest_representable (digits : 1 ≤ p) (q : K) :
    Representable p emin (nearest p emin q) := by
  have range : |q / grid p emin q| ≤ (2 ^ p : ℤ) := by
    have power : (0 : K) < grid p emin q := grid_pos
    have binade : |q| < 2 ^ (gridExp p emin q + p) := abs_lt_two_zpow q
    rw [abs_div, abs_of_pos power, div_le_iff₀ power, grid]
    rw [add_comm, zpow_add₀ two_ne_zero, zpow_natCast] at binade
    push_cast
    exact binade.le
  have high := nearestEven_mono (abs_le.mp range).2
  have low := nearestEven_mono (abs_le.mp range).1
  rw [← Int.cast_neg, nearestEven_intCast] at low
  rw [nearestEven_intCast] at high
  rcases (abs_le.mpr ⟨low, high⟩).lt_or_eq with less | full
  · exact ⟨nearestEven (q / grid p emin q), gridExp p emin q, le_max_right _ _, less, rfl⟩
  · -- a carry out of the significand leaves a power of two
    obtain ⟨k, rfl⟩ := Nat.exists_eq_add_of_le digits
    have carry : (2 : ℤ) ^ (1 + k) = 2 ^ k * 2 := by rw [pow_add, pow_one, mul_comm]
    have digit : |(2 : ℤ) ^ k| < 2 ^ (1 + k) := by
      have positive : (0 : ℤ) < 2 ^ k := pow_pos two_pos k
      rw [abs_of_pos positive, carry]
      omega
    have floor : emin ≤ gridExp (1 + k) emin q := le_max_right _ _
    have least : emin ≤ gridExp (1 + k) emin q + 1 := by omega
    rcases (abs_eq (pow_nonneg two_pos.le _)).mp full with up | down
    · refine ⟨2 ^ k, gridExp (1 + k) emin q + 1, least, digit, ?_⟩
      rw [nearest, up, carry, grid, zpow_add_one₀ two_ne_zero]
      push_cast
      ring
    · refine ⟨-2 ^ k, gridExp (1 + k) emin q + 1, least, (abs_neg _).trans_lt digit, ?_⟩
      rw [nearest, down, carry, grid, zpow_add_one₀ two_ne_zero]
      push_cast
      ring

theorem abs_sub_nearest_le_binade (digits : 1 ≤ p) (nonzero : q ≠ 0)
    (above : emin < gridExp p emin q) :
    |q - nearest p emin q| ≤ |q| - 2 ^ (gridExp p emin q + p - 1) := by
  have large := le_abs_of_emin_lt nonzero above
  have onGrid : ∀ sign : ℤ, |q - nearest p emin q| ≤
      |q - sign * 2 ^ (gridExp p emin q + p - 1)| := by
    intro sign
    obtain ⟨j, multiple⟩ := exists_multiple
      (show gridExp p emin q ≤ gridExp p emin q + p - 1 by omega) sign
    rw [multiple]
    exact abs_sub_nearest_le_multiple q j
  rcases abs_cases q with ⟨size, -⟩ | ⟨size, -⟩
  · rw [size] at large ⊢
    refine (onGrid 1).trans_eq ?_
    rw [Int.cast_one, one_mul, abs_of_nonneg (sub_nonneg.mpr large)]
  · rw [size] at large ⊢
    refine (onGrid (-1)).trans_eq ?_
    rw [Int.cast_neg, Int.cast_one, neg_one_mul, sub_neg_eq_add, abs_of_nonpos (by linarith)]
    ring

theorem abs_sub_nearest_le_of_representable (digits : 1 ≤ p) (q : K) {y : K}
    (rep : Representable p emin y) : |q - nearest p emin q| ≤ |q - y| := by
  obtain ⟨m, e, least, small, rfl⟩ := rep
  rcases le_or_gt (gridExp p emin q) e with coarse | between
  · obtain ⟨j, multiple⟩ := exists_multiple coarse m
    rw [multiple]
    exact abs_sub_nearest_le_multiple q j
  by_cases zero : q = 0
  · rw [zero, nearest_zero, sub_zero, abs_zero]
    exact abs_nonneg _
  have below : |(m * 2 ^ e : K)| ≤ 2 ^ (gridExp p emin q + p - 1) := by
    have power : (0 : K) < 2 ^ e := zpow_pos two_pos e
    have significand : |(m : K)| ≤ 2 ^ p := by exact_mod_cast small.le
    calc |(m * 2 ^ e : K)| = |(m : K)| * 2 ^ e := by rw [abs_mul, abs_of_pos power]
      _ ≤ 2 ^ p * 2 ^ e := mul_le_mul_of_nonneg_right significand power.le
      _ = 2 ^ (p + e : ℤ) := by rw [zpow_add₀ two_ne_zero, zpow_natCast]
      _ ≤ 2 ^ (gridExp p emin q + p - 1) := zpow_le_zpow_right₀ one_le_two (by omega)
  calc |q - nearest p emin q| ≤ |q| - 2 ^ (gridExp p emin q + p - 1) :=
        abs_sub_nearest_le_binade digits zero (lt_of_le_of_lt least between)
    _ ≤ |q| - |(m * 2 ^ e : K)| := sub_le_sub_left below _
    _ ≤ |q - m * 2 ^ e| := abs_sub_abs_le_abs_sub q (m * 2 ^ e)

theorem exists_nearest_eq_intCast (large : 2 ^ p ≤ |q|) : ∃ n : ℤ, nearest p emin q = n := by
  have positive : (0 : K) < |q| := lt_of_lt_of_le (pow_pos two_pos p) large
  have binade : (p : ℤ) ≤ Int.log 2 |q| := by
    rw [← Int.zpow_le_iff_le_log one_lt_two positive, Nat.cast_ofNat, zpow_natCast]
    exact large
  have coarse : 0 ≤ gridExp p emin q := by
    refine le_trans ?_ (le_max_left _ _)
    omega
  obtain ⟨k, exponent⟩ := Int.eq_ofNat_of_zero_le coarse
  refine ⟨nearestEven (q / grid p emin q) * 2 ^ k, ?_⟩
  rw [nearest, grid, exponent, zpow_natCast]
  push_cast
  rfl

theorem nearest_eq_zero_iff (digits : 1 ≤ p) : nearest p emin q = 0 ↔ |q| ≤ 2 ^ (emin - 1) := by
  by_cases nonzero : q = 0
  · subst nonzero
    rw [nearest_zero, abs_zero]
    exact iff_of_true rfl (zpow_nonneg two_pos.le _)
  have half : (2 : K) ^ (emin - 1) = 2 ^ emin / 2 := by rw [zpow_sub_one₀ two_ne_zero]; ring
  constructor
  · intro zero
    have near : |q - nearest p emin q| ≤ grid p emin q / 2 := abs_sub_nearest_le q
    rw [zero, sub_zero] at near
    rcases (le_max_right (Int.log 2 |q| + 1 - p) emin).eq_or_lt with least | above
    · rw [half, least]
      exact near
    · -- above the least exponent the number is at least the distance of its neighbours
      have large := le_abs_of_emin_lt nonzero above
      have coarse : grid p emin q ≤ 2 ^ (gridExp p emin q + p - 1) :=
        zpow_le_zpow_right₀ one_le_two (by omega)
      have positive : (0 : K) < grid p emin q := grid_pos
      linarith
  · intro small
    have least : gridExp p emin q = emin := by
      refine le_antisymm (gridExp_le le_rfl nonzero (lt_of_le_of_lt small ?_)) (le_max_right _ _)
      exact zpow_lt_zpow_right₀ one_lt_two (by omega)
    refine (nearest_eq ?_ fun _ => Even.zero).trans (zero_multiple q).symm
    rw [← zero_multiple, sub_zero, grid, least, ← half]
    exact small

theorem nearest_nonneg_iff (digits : 1 ≤ p) : 0 ≤ nearest p emin q ↔ -2 ^ (emin - 1) ≤ q := by
  rcases le_or_gt 0 q with nonneg | negative
  · have power : (0 : K) < 2 ^ (emin - 1) := zpow_pos two_pos _
    exact iff_of_true (nearest_nonneg nonneg) (by linarith)
  · have rounded : nearest p emin q ≤ nearest p emin 0 := nearest_mono digits negative.le
    rw [nearest_zero] at rounded
    rw [rounded.ge_iff_eq', eq_comm, nearest_eq_zero_iff digits, abs_of_neg negative, neg_le]

section Integers

variable (digits : 1 ≤ p) (fine : emin ≤ 0)
include digits fine

theorem gridExp_nonpos (small : |q| < 2 ^ p) : gridExp p emin q ≤ 0 := by
  by_cases nonzero : q = 0
  · rw [gridExp, nonzero, abs_zero, Int.log_zero_right]
    omega
  · apply gridExp_le fine nonzero
    rw [zero_add, zpow_natCast]
    exact small

/-- Where the grid holds all integers, a number is rounded to one exactly if one is at most
half the distance of neighbours away. -/
theorem nearest_integer_iff (small : |q| < 2 ^ p) :
    (∃ n : ℤ, nearest p emin q = n) ↔ ∃ n : ℤ, |q - n| ≤ grid p emin q / 2 := by
  constructor
  · rintro ⟨n, rounded⟩
    exact ⟨n, rounded ▸ abs_sub_nearest_le q⟩
  · rintro ⟨n, near⟩
    rcases (gridExp_nonpos digits fine small).eq_or_lt with unit | less
    · -- on the grid of the integers every number becomes one
      refine ⟨nearestEven (q / grid p emin q), ?_⟩
      rw [nearest, grid, unit, zpow_zero, mul_one]
    · obtain ⟨k, exponent⟩ := Int.le.dest less
      have multiple : (n : K) = (n * 2 ^ (k + 1) : ℤ) * grid p emin q := by
        have one : (2 : K) ^ (k + 1) * 2 ^ gridExp p emin q = 1 := by
          rw [← zpow_natCast, ← zpow_add₀ two_ne_zero, ← zpow_zero (2 : K)]
          congr 1
          push_cast
          omega
        rw [grid]
        push_cast
        rw [mul_assoc, one, mul_one]
      refine ⟨n, ?_⟩
      rw [multiple] at near ⊢
      exact nearest_eq near fun _ => ⟨n * 2 ^ k, by ring⟩

omit fine in
theorem two_le_two_pow : (2 : K) ≤ 2 ^ p := by
  calc (2 : K) = 2 ^ 1 := (pow_one 2).symm
    _ ≤ 2 ^ p := pow_le_pow_right₀ one_le_two digits

theorem gridExp_half_below : gridExp p emin (2 ^ p - 1 / 2 : K) = 0 := by
  have power : (2 : K) ≤ 2 ^ p := two_le_two_pow digits
  have size : |(2 ^ p - 1 / 2 : K)| = 2 ^ p - 1 / 2 := abs_of_pos (by linarith)
  refine le_antisymm (gridExp_nonpos digits fine ?_) ?_
  · rw [size]
    linarith
  · have binade : (p - 1 : ℤ) ≤ Int.log 2 |(2 ^ p - 1 / 2 : K)| := by
      rw [← Int.zpow_le_iff_le_log one_lt_two (by rw [size]; linarith), size]
      obtain ⟨k, rfl⟩ := Nat.exists_eq_add_of_le digits
      have one : (1 : K) ≤ 2 ^ k := one_le_pow₀ one_le_two
      rw [Nat.cast_ofNat, Nat.cast_add, Nat.cast_one, add_sub_cancel_left, zpow_natCast,
        pow_add, pow_one]
      linarith
    refine le_trans ?_ (le_max_left _ _)
    omega

theorem nearest_half_below : nearest p emin (2 ^ p - 1 / 2 : K) = 2 ^ p := by
  have unit : gridExp p emin (2 ^ p - 1 / 2 : K) = 0 := gridExp_half_below digits fine
  have multiple : (2 ^ p : K) = (2 ^ p : ℤ) * grid p emin (2 ^ p - 1 / 2 : K) := by
    rw [grid, unit, zpow_zero, mul_one]
    push_cast
    rfl
  have half : |(2 ^ p - 1 / 2 - 2 ^ p : K)| = 1 / 2 := by
    rw [sub_sub_cancel_left, abs_neg, abs_of_pos one_half_pos]
  have even : Even (2 ^ p : ℤ) := by
    rw [Int.even_pow]
    exact ⟨even_two, by omega⟩
  refine (nearest_eq ?_ fun _ => even).trans multiple.symm
  rw [← multiple, half, grid, unit, zpow_zero]

/-- Rounding reaches the first integer with one digit too many from half below it. -/
theorem two_pow_le_nearest_iff : 2 ^ p ≤ nearest p emin q ↔ 2 ^ p - 1 / 2 ≤ q := by
  constructor
  · intro reached
    by_contra short
    rw [not_le] at short
    rcases le_or_gt q 0 with negative | positive
    · have power : (2 : K) ≤ 2 ^ p := two_le_two_pow digits
      have rounded : nearest p emin q ≤ nearest p emin 0 := nearest_mono digits negative
      rw [nearest_zero] at rounded
      linarith
    · have inside : |q| < 2 ^ p := by
        rw [abs_of_pos positive]
        linarith
      have unit : grid p emin q ≤ 2 ^ (0 : ℤ) :=
        zpow_le_zpow_right₀ one_le_two (gridExp_nonpos digits fine inside)
      have near : |q - nearest p emin q| ≤ grid p emin q / 2 := abs_sub_nearest_le q
      have above := (abs_le.mp near).1
      rw [zpow_zero] at unit
      linarith
  · intro reached
    rw [← nearest_half_below digits fine]
    exact nearest_mono digits reached

theorem nearest_lt_two_pow_iff : nearest p emin q < 2 ^ p ↔ q < 2 ^ p - 1 / 2 := by
  rw [← not_le, two_pow_le_nearest_iff digits fine, not_le]

theorem abs_nearest_lt_two_pow_iff : |nearest p emin q| < 2 ^ p ↔ |q| < 2 ^ p - 1 / 2 := by
  have mirror : nearest p emin (-q) < 2 ^ p ↔ -q < 2 ^ p - 1 / 2 :=
    nearest_lt_two_pow_iff digits fine
  rw [nearest_neg] at mirror
  rw [abs_lt, abs_lt, neg_lt, neg_lt (a := (2 ^ p - 1 / 2 : K)), mirror,
    nearest_lt_two_pow_iff digits fine]

end Integers

end Format

end StreamDataPipeline.Foundations.FloatingPoint
