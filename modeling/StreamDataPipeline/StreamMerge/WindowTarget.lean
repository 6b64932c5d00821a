/- The bytes of a window in `long double`. -/

import Mathlib.Data.Rat.Floor
import StreamDataPipeline.Foundations.FloatingPoint
import StreamDataPipeline.StreamMerge.Branches

set_option autoImplicit false
set_option relaxedAutoImplicit false

namespace StreamDataPipeline.StreamMerge.WindowTarget

open Foundations Foundations.FloatingPoint Fsm FsmRun Branches

/-- `long double` has a significand of 64 bits, so the two factors are exact. -/
def nearestLongDouble (q : ℚ) : ℚ := nearest 64 (-16445) q

/-- `aligned_target_bytes` with the product and the quotient rounded as the source has them. -/
def roundedTargetBytes (clipMs : Int) (byteRate frameAlign : Nat) : Nat :=
  if clipMs ≤ 0 ∨ byteRate = 0 then 0
  else
    let target := ⌊nearestLongDouble (nearestLongDouble (clipMs * byteRate) / 1000)⌋.toNat
    if 1 < frameAlign then target - target % frameAlign else target

theorem nearestLongDouble_natCast {n : Nat} (small : n < 2 ^ 64) :
    nearestLongDouble n = n := by
  refine nearest_of_representable ⟨n, 0, by decide, ?_, by simp⟩
  rw [Nat.abs_cast]
  exact_mod_cast small

/-- The quotient of a number of 64 bits is rounded by less than the distance of its thousandths
to the next integer. -/
theorem floor_nearestLongDouble {product : Nat} (small : product < 2 ^ 64) :
    ⌊nearestLongDouble ((product : ℚ) / 1000)⌋ = (product / 1000 : Nat) := by
  have split : (product : ℚ) = 1000 * (product / 1000 : Nat) + (product % 1000 : Nat) := by
    exact_mod_cast (Nat.div_add_mod product 1000).symm
  have rest : ((product % 1000 : Nat) : ℚ) ≤ 999 := by
    exact_mod_cast Nat.le_of_lt_succ (Nat.mod_lt product (by decide))
  have positive : (0 : ℚ) ≤ (product % 1000 : Nat) := Nat.cast_nonneg _
  have bound : (product : ℚ) < 2 ^ 64 := by exact_mod_cast small
  rw [Int.floor_eq_iff]
  constructor
  · have below : ((product / 1000 : Nat) : ℚ) ≤ product / 1000 := by linarith
    have rounded : nearestLongDouble _ ≤ nearestLongDouble _ := nearest_mono (by decide) below
    rw [nearestLongDouble_natCast (by omega)] at rounded
    exact_mod_cast rounded
  · have size : |(product / 1000 : ℚ)| < 2 ^ ((-9 : ℤ) + (64 : ℕ)) := by
      rw [abs_of_nonneg (by positivity), div_lt_iff₀ (by norm_num)]
      exact bound.trans_le (by norm_num)
    have fine : grid 64 (-16445) (product / 1000 : ℚ) ≤ 2 ^ (-9 : ℤ) := by
      by_cases zero : (product / 1000 : ℚ) = 0
      · rw [grid, gridExp, zero, abs_zero, Int.log_zero_right]
        exact zpow_le_zpow_right₀ one_le_two (by decide)
      · exact zpow_le_zpow_right₀ one_le_two (gridExp_le (by decide) zero size)
    have near : |(product / 1000 : ℚ) - nearestLongDouble (product / 1000)| ≤ _ :=
      abs_sub_nearest_le _
    have low := (abs_le.mp near).1
    norm_num at fine
    rw [Int.cast_natCast]
    linarith

/-- Below 2^64 the rounding changes nothing. -/
theorem roundedTargetBytes_eq {clipMs : Int} {byteRate : Nat}
    (small : clipMs.toNat * byteRate < 2 ^ 64) (frameAlign : Nat) :
    roundedTargetBytes clipMs byteRate frameAlign =
      alignedTargetBytes clipMs byteRate frameAlign := by
  unfold roundedTargetBytes alignedTargetBytes
  split_ifs with none
  · rfl
  all_goals
    have product : (clipMs * byteRate : ℚ) = (clipMs.toNat * byteRate : Nat) := by
      have nonneg : (clipMs.toNat : Int) = clipMs := Int.toNat_of_nonneg (by omega)
      push_cast
      exact_mod_cast congrArg (· * (byteRate : Int)) nonneg.symm
    rw [product, nearestLongDouble_natCast small, floor_nearestLongDouble small, Int.toNat_natCast]

/-- The cut takes what the source computes. -/
def ExactTarget (clipMs : Int) (fsm : SmFsm) : Prop :=
  roundedTargetBytes clipMs fsm.byteRate fsm.frameAlign = windowBytes clipMs fsm

/-- A byte rate whose product with the window has 64 bits. -/
def RateFits (clipMs : Int) (byteRate : Nat) : Prop := clipMs.toNat * byteRate < 2 ^ 64

instance (clipMs : Int) (byteRate : Nat) : Decidable (RateFits clipMs byteRate) :=
  inferInstanceAs (Decidable (_ < _))

theorem maybeEmit_byteRate (clipMs : Int) (fsm : SmFsm) :
    (maybeEmitContinuousWindow fsm clipMs).1.byteRate = fsm.byteRate := by
  by_cases full : Full clipMs fsm
  · rw [maybeEmit_full full]
    rfl
  · rw [maybeEmit_short full]

theorem call_rate_fits {clipMs : Int} {fsm : SmFsm} {call : FsmCall}
    (fits : RateFits clipMs fsm.byteRate)
    (allowed : call.Satisfies fun rec => RateFits clipMs rec.byteRate) :
    RateFits clipMs (callStep clipMs fsm call).1.byteRate := by
  have empty : RateFits clipMs smFsmReset.byteRate := by
    rw [RateFits, smFsmReset, Nat.mul_zero]
    decide
  cases call with
  | record rec nowMs =>
      have opened : RateFits clipMs (startClip rec nowMs).byteRate := allowed
      simp only [callStep, processRecord_branch]
      cases recordBranch clipMs fsm rec with
      | ignore | late | append => exact fits
      | gap | boundary => exact opened
      | restart =>
          rw [branchStep, maybeEmit_byteRate]
          exact opened
      | extend =>
          rw [branchStep, maybeEmit_byteRate]
          exact fits
  | idle idleMs nowMs => exact drain_preserves (RateFits clipMs ·.byteRate) empty fits (by simp)
  | flush => exact drain_preserves (RateFits clipMs ·.byteRate) empty fits (by simp)

theorem run_exact_target {clipMs : Int} {calls : List FsmCall}
    (allowed : ∀ call ∈ calls, call.Satisfies fun rec => RateFits clipMs rec.byteRate) :
    Mealy.Along (callStep clipMs) (fun fsm call => ExactTarget clipMs (callStep clipMs fsm call).1)
      smFsmReset calls := by
  refine Mealy.along_of_invariant (callStep clipMs) (RateFits clipMs ·.byteRate) _ ?_
    (fun _ _ fits here => call_rate_fits fits here) ?_ allowed
  · intro fsm call fits here
    exact roundedTargetBytes_eq (call_rate_fits fits here) _
  · rw [RateFits, smFsmReset, Nat.mul_zero]
    decide

end StreamDataPipeline.StreamMerge.WindowTarget
